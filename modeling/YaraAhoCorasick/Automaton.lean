import Mathlib.Logic.Function.Basic
import YaraAhoCorasick.Tokens

namespace YaraAhoCorasick.Automaton

open YaraAhoCorasick.Tokens

/-- `MAX_TABLE_BASED_STATES_DEPTH`: states up to this depth are table based. -/
def maxTableBasedStatesDepth : Nat := 1


structure AcStateTransition where
  input : UInt8
  state : Nat
deriving DecidableEq, Repr

/-- The transition part of a state, in the layout it was allocated with:
`AC_TABLE_BASED_STATE` (256 slots) or `AC_LIST_BASED_STATE` (a list of cells). -/
inductive AcTransitions where
  | table (transitions : UInt8 → Option Nat)
  | list (transitions : List AcStateTransition)

def AcTransitions.tableOf : AcTransitions → UInt8 → Option Nat
  | .table t => t
  | .list _ => fun _ => none

def AcTransitions.listOf : AcTransitions → List AcStateTransition
  | .table _ => []
  | .list l => l

def AcTransitions.isTable : AcTransitions → Bool
  | .table _ => true
  | .list _ => false

/-- A write through the table layout; on a list-based state it lands outside what the
model tracks, so the list is unchanged. -/
def AcTransitions.setTable : AcTransitions → UInt8 → Nat → AcTransitions
  | .table t, input, target => .table (Function.update t input (some target))
  | .list l, _, _ => .list l

def AcTransitions.push : AcTransitions → AcStateTransition → AcTransitions
  | .list l, t => .list (t :: l)
  | .table t, _ => .table t

/-- `AC_STATE`: the common header (`matchHead` is the field `matches`, the head of the
output chain) and the transitions. -/
structure AcState where
  depth : Nat
  failure : Option Nat
  matchHead : Option Nat
  transitions : AcTransitions

structure AcMatch where
  backtrack : Int
  string : YrString
  next : Option Nat

inductive YrError where
  | success
  | insuficientMemory
deriving DecidableEq, Repr

/-- The states and match records allocated so far, and the outcome `ok n` of the `n`th
allocation call (through the arena or `yr_malloc`); `calls` counts those calls. -/
structure Arena where
  states : Nat → AcState
  stateCount : Nat
  matchRecords : Nat → AcMatch
  matchCount : Nat
  ok : Nat → Bool
  calls : Nat

def emptyArena (ok : Nat → Bool) : Arena :=
  ⟨fun _ => ⟨0, none, none, .table fun _ => none⟩, 0,
    fun _ => ⟨0, ⟨false, false, false, false, false, [], [], []⟩, none⟩, 0, ok, 0⟩

structure AcAutomaton where
  root : Nat

namespace Arena

def allocate (A : Arena) : Bool × Arena := (A.ok A.calls, { A with calls := A.calls + 1 })

def newState (A : Arena) (s : AcState) : Arena :=
  { A with states := Function.update A.states A.stateCount s, stateCount := A.stateCount + 1 }

def setState (A : Arena) (r : Nat) (s : AcState) : Arena :=
  { A with states := Function.update A.states r s }

def setMatch (A : Arena) (m : Nat) (x : AcMatch) : Arena :=
  { A with matchRecords := Function.update A.matchRecords m x }

def addMatch (A : Arena) (state : Nat) (backtrack : Int) (string : YrString) : Arena :=
  { A with
    matchRecords := Function.update A.matchRecords A.matchCount
      ⟨backtrack, string, (A.states state).matchHead⟩
    matchCount := A.matchCount + 1
    states := Function.update A.states state
      { A.states state with matchHead := some A.matchCount } }

end Arena

def listLookup (input : UInt8) : List AcStateTransition → Option Nat
  | [] => none
  | t :: ts => if t.input = input then some t.state else listLookup input ts

/-- `yr_ac_next_state`: the layout is chosen by the depth of the state. -/
def yrAcNextState (A : Arena) (state : Nat) (input : UInt8) : Option Nat :=
  let s := A.states state
  if s.depth ≤ maxTableBasedStatesDepth then s.transitions.tableOf input
  else listLookup input s.transitions.listOf

def installTransition (s : AcState) (input : UInt8) (target : Nat) : AcTransitions :=
  if s.depth ≤ maxTableBasedStatesDepth then s.transitions.setTable input target
  else s.transitions.push ⟨input, target⟩

def freshTransitions (depth : Nat) : AcTransitions :=
  if depth < maxTableBasedStatesDepth then .table (fun _ => none) else .list []

/-- `_yr_ac_create_state`: a fresh state (zeroed by the arena) reached from `state` on
`input`; `none` when one of its two allocations fails. -/
def yrAcCreateState (A : Arena) (state : Nat) (input : UInt8) : Arena × Option Nat :=
  let s := A.states state
  match A.allocate with
  | (false, A) => (A, none)
  | (true, A) =>
    let newState := A.stateCount
    let A := A.newState ⟨0, none, none, freshTransitions s.depth⟩
    match A.allocate with
    | (false, A) => (A, none)
    | (true, A) =>
      let A := A.setState state { s with transitions := installTransition s input newState }
      (A.setState newState { A.states newState with depth := s.depth + 1 }, some newState)

/-- `yr_ac_create_automaton`: the automaton record and a table-based root of depth 0. -/
def yrAcCreateAutomaton (A : Arena) : Arena × Option AcAutomaton :=
  match A.allocate with
  | (false, A) => (A, none)
  | (true, A) =>
    match A.allocate with
    | (false, A) => (A, none)
    | (true, A) => (A.newState ⟨0, none, none, .table (fun _ => none)⟩, some ⟨A.stateCount⟩)

inductive AcIterator where
  | index (i : Nat)
  | transition (cell : List AcStateTransition)

def tableNextChild (t : UInt8 → Option Nat) : Nat → Nat → Option (Nat × AcIterator)
  | 0, _ => none
  | fuel + 1, i =>
    match t (UInt8.ofNat i) with
    | some s => some (s, .index (i + 1))
    | none => tableNextChild t fuel (i + 1)

def yrAcNextChild (A : Arena) (state : Nat) (iterator : AcIterator) :
    Option (Nat × AcIterator) :=
  let s := A.states state
  if s.depth ≤ maxTableBasedStatesDepth then
    match iterator with
    | .index i => tableNextChild s.transitions.tableOf (256 - i) i
    | .transition _ => none
  else
    match iterator with
    | .transition (_ :: t :: rest) => some (t.state, .transition (t :: rest))
    | _ => none

def yrAcFirstChild (A : Arena) (state : Nat) : Option (Nat × AcIterator) :=
  let s := A.states state
  if s.depth ≤ maxTableBasedStatesDepth then yrAcNextChild A state (.index 0)
  else
    match s.transitions.listOf with
    | t :: rest => some (t.state, .transition (t :: rest))
    | [] => none

def nextChildren (A : Arena) (state : Nat) : Nat → AcIterator → List Nat
  | 0, _ => []
  | fuel + 1, iterator =>
    match yrAcNextChild A state iterator with
    | some (child, iterator) => child :: nextChildren A state fuel iterator
    | none => []

/-- The children `_yr_ac_first_child` and then `_yr_ac_next_child` return until `NULL`. -/
def children (A : Arena) (state : Nat) : List Nat :=
  match yrAcFirstChild A state with
  | some (child, iterator) =>
    child :: nextChildren A state (256 + (A.states state).transitions.listOf.length) iterator
  | none => []

def reach (A : Arena) (s : Nat) : List UInt8 → Option Nat
  | [] => some s
  | c :: w => (yrAcNextState A s c).bind (fun t => reach A t w)

def AcState.LayoutOk (s : AcState) : Prop :=
  s.transitions.isTable = true ↔ s.depth ≤ maxTableBasedStatesDepth

def AcState.lookup (s : AcState) (input : UInt8) : Option Nat :=
  if s.depth ≤ maxTableBasedStatesDepth then s.transitions.tableOf input
  else listLookup input s.transitions.listOf

theorem yrAcNextState_eq (A : Arena) (state : Nat) (input : UInt8) :
    yrAcNextState A state input = (A.states state).lookup input := rfl

@[simp] theorem listLookup_cons (input : UInt8) (t : AcStateTransition) (ts : List AcStateTransition) :
    listLookup input (t :: ts) = if t.input = input then some t.state else listLookup input ts := rfl

theorem lookup_installTransition (s : AcState) (hs : s.LayoutOk) (input c : UInt8)
    (target : Nat) :
    ({ s with transitions := installTransition s input target } : AcState).lookup c =
      if c = input then some target else s.lookup c := by
  unfold AcState.LayoutOk at hs
  rcases s with ⟨depth, failure, matchHead, tr⟩
  cases tr with
  | table t =>
    have hd : depth ≤ maxTableBasedStatesDepth := hs.mp rfl
    simp [AcState.lookup, installTransition, hd, AcTransitions.setTable,
      AcTransitions.tableOf, Function.update_apply]
  | list l =>
    have hd : ¬ depth ≤ maxTableBasedStatesDepth := fun h => by
      simpa [AcTransitions.isTable] using hs.mpr h
    by_cases hc : c = input
    · simp [AcState.lookup, installTransition, hd, AcTransitions.push, AcTransitions.listOf, hc]
    · simp [AcState.lookup, installTransition, hd, AcTransitions.push, AcTransitions.listOf, hc,
        Ne.symm hc]

theorem lookup_fresh (depth : Nat) (c : UInt8) :
    (⟨depth + 1, none, none, freshTransitions depth⟩ : AcState).lookup c = none := by
  unfold AcState.lookup freshTransitions
  split_ifs <;> rfl

@[simp] theorem reach_nil (A : Arena) (s : Nat) : reach A s [] = some s := rfl

@[simp] theorem reach_cons (A : Arena) (s : Nat) (c : UInt8) (w : List UInt8) :
    reach A s (c :: w) = (yrAcNextState A s c).bind (fun t => reach A t w) := rfl

theorem reach_append (A : Arena) (s : Nat) (v w : List UInt8) :
    reach A s (v ++ w) = (reach A s v).bind (fun t => reach A t w) := by
  induction v generalizing s with
  | nil => rfl
  | cons c v ih =>
    simp only [List.cons_append, reach_cons]
    cases yrAcNextState A s c <;> simp [ih]

theorem reach_append_singleton (A : Arena) (s : Nat) (v : List UInt8) (c : UInt8) :
    reach A s (v ++ [c]) = (reach A s v).bind (fun t => yrAcNextState A t c) := by
  rw [reach_append]
  cases reach A s v <;> simp [Option.bind_eq_bind]

theorem reach_of_reach_append {A : Arena} {s t : Nat} {v w : List UInt8}
    (h : reach A s (v ++ w) = some t) : ∃ u, reach A s v = some u := by
  rw [reach_append] at h
  cases hv : reach A s v with
  | none => simp [hv] at h
  | some u => exact ⟨u, rfl⟩

theorem reach_eq_of_lookup_eq {A B : Arena} {root : Nat}
    (h : ∀ v s, reach A root v = some s → ∀ c, yrAcNextState B s c = yrAcNextState A s c)
    (w : List UInt8) : reach B root w = reach A root w := by
  suffices ∀ w v s, reach A root v = some s → reach B s w = reach A s w from this w [] root rfl
  intro w
  induction w with
  | nil => intro _ _ _; rfl
  | cons c w ih =>
    intro v s hs
    simp only [reach_cons, h v s hs c]
    cases ht : yrAcNextState A s c with
    | none => rfl
    | some t => exact ih (v ++ [c]) t (by rw [reach_append_singleton, hs]; exact ht)

theorem yrAcCreateState_none {A B : Arena} {p : Nat} {b : UInt8}
    (h : yrAcCreateState A p b = (B, none)) :
    A.stateCount ≤ B.stateCount ∧ B.matchRecords = A.matchRecords ∧ B.matchCount = A.matchCount ∧
      B.ok = A.ok ∧ (∀ s, s < A.stateCount → B.states s = A.states s) ∧
      ∀ s, A.stateCount ≤ s → s < B.stateCount →
        (B.states s).matchHead = none ∧ (B.states s).failure = none := by
  unfold yrAcCreateState at h
  simp only [Arena.allocate] at h
  cases h1 : A.ok A.calls <;> simp only [h1] at h
  · cases h
    exact ⟨le_rfl, rfl, rfl, rfl, fun _ _ => rfl, fun s h h' => absurd h' (by simpa using h)⟩
  · cases h2 : A.ok (A.calls + 1) <;> simp only [Arena.newState, h2] at h
    · cases h
      refine ⟨by simp, rfl, rfl, rfl, fun s hs => ?_, fun s hs hs' => ?_⟩
      · simp [Function.update_apply, hs.ne]
      · obtain rfl : s = A.stateCount := by simp at hs'; omega
        simp
    · cases h

theorem yrAcCreateState_some {A B : Arena} {p n : Nat} {b : UInt8} (hp : p < A.stateCount)
    (h : yrAcCreateState A p b = (B, some n)) :
    n = A.stateCount ∧ B.stateCount = A.stateCount + 1 ∧ B.matchRecords = A.matchRecords ∧
      B.matchCount = A.matchCount ∧ B.ok = A.ok ∧
      B.states = Function.update (Function.update A.states p
        { A.states p with transitions := installTransition (A.states p) b n })
        n ⟨(A.states p).depth + 1, none, none, freshTransitions (A.states p).depth⟩ := by
  unfold yrAcCreateState at h
  simp only [Arena.allocate] at h
  cases h1 : A.ok A.calls <;> simp only [h1] at h
  · cases h
  · cases h2 : A.ok (A.calls + 1) <;>
      simp only [Arena.newState, Arena.setState, h2, Prod.mk.injEq, Option.some.injEq] at h
    · cases h.2
    · obtain ⟨rfl, rfl⟩ := h
      refine ⟨rfl, rfl, rfl, rfl, rfl, ?_⟩
      funext s
      by_cases hs : s = A.stateCount
      · subst hs; simp [Function.update_apply, hp.ne']
      · by_cases hsp : s = p
        · subst hsp; simp [Function.update_apply, hs]
        · simp [Function.update_apply, hs, hsp]

@[simp] theorem isTable_installTransition (s : AcState) (input : UInt8) (target : Nat) :
    (installTransition s input target).isTable = s.transitions.isTable := by
  unfold installTransition
  rcases s with ⟨_, _, _, _ | _⟩ <;> split_ifs <;> rfl

theorem listLookup_eq_none (input : UInt8) (l : List AcStateTransition) :
    listLookup input l = none ↔ input ∉ l.map (·.input) := by
  induction l with
  | nil => simp [listLookup]
  | cons t ts ih =>
    by_cases h : t.input = input
    · simp [h]
    · simp [h, ih, Ne.symm h]

theorem nodup_installTransition (s : AcState) (hs : s.LayoutOk) {input : UInt8} (target : Nat)
    (hnd : (s.transitions.listOf.map (·.input)).Nodup) (hnone : s.lookup input = none) :
    ((installTransition s input target).listOf.map (·.input)).Nodup := by
  unfold AcState.LayoutOk at hs
  rcases s with ⟨depth, failure, matchHead, _ | l⟩
  · unfold installTransition
    split_ifs <;> simp [AcTransitions.setTable, AcTransitions.push, AcTransitions.listOf]
  · have hd : ¬ depth ≤ maxTableBasedStatesDepth := fun h => by
      simpa [AcTransitions.isTable] using hs.mpr h
    have hb : input ∉ l.map (·.input) := by
      rw [← listLookup_eq_none]
      simpa [AcState.lookup, hd, AcTransitions.listOf] using hnone
    simpa [installTransition, hd, AcTransitions.push, AcTransitions.listOf, hb] using hnd

theorem freshTransitions_ok (depth : Nat) :
    (⟨depth + 1, none, none, freshTransitions depth⟩ : AcState).LayoutOk ∧
      ((freshTransitions depth).listOf.map (·.input)).Nodup := by
  unfold AcState.LayoutOk freshTransitions
  split_ifs <;> simp [AcTransitions.isTable, AcTransitions.listOf, maxTableBasedStatesDepth] at * <;>
    omega

end YaraAhoCorasick.Automaton
