import Mathlib.Data.List.Perm.Subperm
import YaraAhoCorasick.Automaton

namespace YaraAhoCorasick.MatchList

open YaraAhoCorasick.Tokens YaraAhoCorasick.Automaton

/-- `Chain A head ms`: following `next` from `head` visits the match records `ms`, in this
order, and then reaches `NULL`. A chain that runs into a cycle has no such `ms`. -/
inductive Chain (A : Arena) : Option Nat → List Nat → Prop
  | nil : Chain A none []
  | cons {m : Nat} {ms : List Nat} : Chain A (A.matchRecords m).next ms → Chain A (some m) (m :: ms)

/-- The records met by following `next` from `head`, at most `fuel` of them. -/
def walk (A : Arena) : Nat → Option Nat → List Nat
  | 0, _ => []
  | _ + 1, none => []
  | fuel + 1, some m => m :: walk A fuel (A.matchRecords m).next

def entries (A : Arena) (ms : List Nat) : List (YrString × Int) :=
  ms.map fun m => ((A.matchRecords m).string, (A.matchRecords m).backtrack)

variable {A B : Arena} {head : Option Nat} {ms ns : List Nat}

@[simp] theorem chain_none_iff : Chain A none ms ↔ ms = [] :=
  ⟨fun h => by cases h; rfl, fun h => h ▸ .nil⟩

theorem chain_some_iff {m : Nat} :
    Chain A (some m) ms ↔ ∃ ms', ms = m :: ms' ∧ Chain A (A.matchRecords m).next ms' :=
  ⟨fun h => by cases h with | cons h => exact ⟨_, rfl, h⟩, fun ⟨_, h, h'⟩ => h ▸ .cons h'⟩

theorem Chain.head_eq (h : Chain A head ms) : head = ms.head? := by
  cases h <;> rfl

theorem Chain.last_next (h : Chain A head ms) (hne : ms ≠ []) :
    (A.matchRecords (ms.getLast hne)).next = none := by
  induction h with
  | nil => exact absurd rfl hne
  | @cons m ms h ih =>
    rcases ms with _ | ⟨m', ms⟩
    · simpa using h.head_eq
    · simpa using ih (List.cons_ne_nil _ _)

theorem Chain.unique (h : Chain A head ms) (h' : Chain A head ns) : ms = ns := by
  induction h generalizing ns with
  | nil => exact (chain_none_iff.mp h').symm
  | cons _ ih =>
    obtain ⟨ns', rfl, hn⟩ := chain_some_iff.mp h'
    rw [ih hn]

theorem Chain.suffix {ms₁ : List Nat} {m : Nat} (h : Chain A head (ms₁ ++ m :: ms)) :
    Chain A (some m) (m :: ms) := by
  induction ms₁ generalizing head with
  | nil => cases h with | cons h => exact .cons h
  | cons m' ms₁ ih => cases h with | cons h => exact ih h

theorem Chain.nodup (h : Chain A head ms) : ms.Nodup := by
  induction h with
  | nil => exact List.nodup_nil
  | @cons m ms h ih =>
    refine List.nodup_cons.mpr ⟨fun hm => ?_, ih⟩
    obtain ⟨ms₁, ms₂, rfl⟩ := List.append_of_mem hm
    have hlen := congrArg List.length ((h.suffix).unique (Chain.cons h))
    simp at hlen
    omega

theorem Chain.frame (h : Chain A head ms) (hm : ∀ m ∈ ms, B.matchRecords m = A.matchRecords m) :
    Chain B head ms := by
  induction h with
  | nil => exact .nil
  | @cons m ms _ ih =>
    refine .cons ?_
    rw [hm m (List.mem_cons_self _ _)]
    exact ih fun m' h' => hm m' (List.mem_cons_of_mem _ h')

theorem Chain.length_le {N : Nat} (h : Chain A head ms) (hms : ∀ m ∈ ms, m < N) :
    ms.length ≤ N := by
  simpa using (h.nodup.subperm fun m hm => List.mem_range.mpr (hms m hm)).length_le

theorem walk_of_chain (h : Chain A head ms) (fuel : Nat) (hf : ms.length ≤ fuel) :
    walk A fuel head = ms := by
  induction h generalizing fuel with
  | nil => cases fuel <;> rfl
  | cons _ ih =>
    obtain ⟨fuel, rfl⟩ : ∃ f, fuel = f + 1 := ⟨fuel - 1, by simp at hf; omega⟩
    simp only [walk, ih fuel (by simpa using hf)]

theorem Chain.append {A₀ : Arena} {target : Option Nat} (h₀ : Chain A₀ head ms) (hne : ms ≠ [])
    (hkeep : ∀ m ∈ ms.dropLast, A.matchRecords m = A₀.matchRecords m)
    (hlast : (A.matchRecords (ms.getLast hne)).next = target) (hL : Chain A target ns) :
    Chain A head (ms ++ ns) := by
  induction h₀ with
  | nil => exact absurd rfl hne
  | @cons m ms h ih =>
    rcases ms with _ | ⟨m', ms⟩
    · exact .cons (hlast ▸ hL)
    · refine .cons ?_
      rw [hkeep m (by simp)]
      exact ih (List.cons_ne_nil _ _) (fun m'' hm'' => hkeep m'' (by simp [hm'']))
        (by simpa using hlast)

theorem entries_frame (hm : ∀ m ∈ ms, B.matchRecords m = A.matchRecords m) :
    entries B ms = entries A ms :=
  List.map_congr_left fun m h => by rw [hm m h]

end YaraAhoCorasick.MatchList
