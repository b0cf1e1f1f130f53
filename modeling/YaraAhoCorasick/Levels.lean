import Mathlib.Data.List.Nodup
import Mathlib.Data.List.Perm.Subperm
import YaraAhoCorasick.Trie

namespace YaraAhoCorasick.Levels

open YaraAhoCorasick.Tokens YaraAhoCorasick.Automaton YaraAhoCorasick.Trie

variable {A : Arena} {root : Nat}

theorem tableNextChild_filterMap (t : UInt8 → Option Nat) (n i : Nat) :
    (List.range' i n).filterMap (fun j => t (UInt8.ofNat j)) =
      match tableNextChild t n i with
      | some (c, .index j) => c :: (List.range' j (i + n - j)).filterMap (fun j => t (UInt8.ofNat j))
      | _ => [] := by
  induction n generalizing i with
  | zero => rfl
  | succ n ih =>
    rw [List.range'_succ, List.filterMap_cons]
    simp only [tableNextChild]
    cases t (UInt8.ofNat i) with
    | some c => simp [show i + (n + 1) - (i + 1) = n by omega]
    | none => rw [ih]; simp only [show i + 1 + n = i + (n + 1) by omega]

theorem tableNextChild_index (t : UInt8 → Option Nat) (n i c : Nat) (it : AcIterator)
    (h : tableNextChild t n i = some (c, it)) : ∃ j, it = .index j ∧ i < j ∧ j ≤ i + n := by
  induction n generalizing i with
  | zero => simp [tableNextChild] at h
  | succ n ih =>
    simp only [tableNextChild] at h
    cases ht : t (UInt8.ofNat i) with
    | some c' =>
      simp only [ht, Option.some.injEq, Prod.mk.injEq] at h
      exact ⟨i + 1, h.2.symm, by omega, by omega⟩
    | none =>
      rw [ht] at h
      obtain ⟨j, hj, h1, h2⟩ := ih (i + 1) h
      exact ⟨j, hj, by omega, by omega⟩

theorem nextChildren_table (hd : (A.states s).depth ≤ maxTableBasedStatesDepth) (fuel i : Nat)
    (hi : i ≤ 256) (hfuel : 256 - i ≤ fuel) :
    nextChildren A s fuel (.index i) =
      (List.range' i (256 - i)).filterMap (fun j => (A.states s).transitions.tableOf (UInt8.ofNat j)) := by
  induction fuel generalizing i with
  | zero =>
    obtain rfl : i = 256 := by omega
    rfl
  | succ fuel ih =>
    rw [tableNextChild_filterMap]
    simp only [nextChildren, yrAcNextChild, hd, ↓reduceIte]
    rcases h : tableNextChild (A.states s).transitions.tableOf (256 - i) i with _ | ⟨c, it⟩
    · rfl
    · obtain ⟨j, rfl, h1, h2⟩ := tableNextChild_index _ _ _ c it h
      simp only
      rw [ih j (by omega) (by omega), show i + (256 - i) - j = 256 - j by omega]

theorem nextChildren_list (hd : ¬ (A.states s).depth ≤ maxTableBasedStatesDepth)
    (x : AcStateTransition) (rest : List AcStateTransition) (fuel : Nat)
    (hfuel : rest.length ≤ fuel) :
    nextChildren A s fuel (.transition (x :: rest)) = rest.map (·.state) := by
  induction rest generalizing x fuel with
  | nil => cases fuel <;> simp [nextChildren, yrAcNextChild, hd]
  | cons y rest ih =>
    obtain ⟨fuel, rfl⟩ : ∃ f, fuel = f + 1 := ⟨fuel - 1, by simp at hfuel; omega⟩
    simp only [nextChildren, yrAcNextChild, hd, ↓reduceIte, List.map_cons]
    rw [ih y fuel (by simpa using hfuel)]

theorem children_eq (A : Arena) (s : Nat) :
    children A s =
      if (A.states s).depth ≤ maxTableBasedStatesDepth then
        (List.range 256).filterMap (fun j => (A.states s).transitions.tableOf (UInt8.ofNat j))
      else (A.states s).transitions.listOf.map (·.state) := by
  by_cases hd : (A.states s).depth ≤ maxTableBasedStatesDepth
  · simp only [children, yrAcFirstChild, yrAcNextChild, hd, ↓reduceIte]
    rw [List.range_eq_range', tableNextChild_filterMap]
    rcases h : tableNextChild (A.states s).transitions.tableOf (256 - 0) 0 with _ | ⟨c, it⟩
    · rfl
    · obtain ⟨j, rfl, h1, h2⟩ := tableNextChild_index _ _ _ c it h
      simp only
      rw [nextChildren_table hd _ j (by omega) (by omega), show 0 + 256 - j = 256 - j by omega]
  · simp only [children, yrAcFirstChild, hd, ↓reduceIte]
    rcases hl : (A.states s).transitions.listOf with _ | ⟨x, rest⟩
    · rfl
    · simp only [List.map_cons]
      rw [nextChildren_list hd x rest _ (by simp; omega)]

theorem listLookup_of_mem {l : List AcStateTransition} (hl : (l.map (·.input)).Nodup)
    {x : AcStateTransition} (hx : x ∈ l) : listLookup x.input l = some x.state := by
  induction l with
  | nil => simp at hx
  | cons y l ih =>
    simp only [List.map_cons, List.nodup_cons, List.mem_map] at hl
    rcases List.mem_cons.mp hx with rfl | hx
    · simp
    · have hne : y.input ≠ x.input := fun h => hl.1 ⟨x, hx, h.symm⟩
      simp [hne, ih hl.2 hx]

theorem listLookup_mem {l : List AcStateTransition} {c : UInt8} {t : Nat}
    (h : listLookup c l = some t) : ∃ x ∈ l, x.input = c ∧ x.state = t := by
  induction l with
  | nil => simp [listLookup] at h
  | cons y l ih =>
    simp only [listLookup] at h
    split_ifs at h with hy
    · exact ⟨y, List.mem_cons_self _ _, hy, Option.some.inj h⟩
    · obtain ⟨x, hx, h⟩ := ih h
      exact ⟨x, List.mem_cons_of_mem _ hx, h⟩

section Children

variable {w : List UInt8} {s : Nat}

theorem mem_children (hI : TrieInv A root) (hs : reach A root w = some s) (x : Nat) :
    x ∈ children A s ↔ ∃ c, yrAcNextState A s c = some x := by
  rw [children_eq]
  simp only [yrAcNextState_eq, AcState.lookup]
  split_ifs with hd
  · simp only [List.mem_filterMap, List.mem_range]
    refine ⟨fun ⟨j, _, h⟩ => ⟨_, h⟩, fun ⟨c, h⟩ => ⟨c.toNat, c.toNat_lt_size, ?_⟩⟩
    rwa [UInt8.toNat.inj (UInt8.toNat_ofNat_of_lt c.toNat_lt_size)]
  · simp only [List.mem_map]
    constructor
    · rintro ⟨y, hy, rfl⟩
      exact ⟨y.input, listLookup_of_mem (hI.nodup w s hs) hy⟩
    · rintro ⟨c, h⟩
      obtain ⟨y, hy, -, rfl⟩ := listLookup_mem h
      exact ⟨y, hy, rfl⟩

theorem input_unique (hI : TrieInv A root) (hs : reach A root w = some s) {c c' : UInt8} {x : Nat}
    (h : yrAcNextState A s c = some x) (h' : yrAcNextState A s c' = some x) : c = c' := by
  have h₁ : reach A root (w ++ [c]) = some x := by rw [reach_append_singleton, hs]; exact h
  have h₂ : reach A root (w ++ [c']) = some x := by rw [reach_append_singleton, hs]; exact h'
  simpa using hI.inj _ _ x h₁ h₂

theorem children_nodup (hI : TrieInv A root) (hs : reach A root w = some s) :
    (children A s).Nodup := by
  rw [children_eq]
  split_ifs with hd
  · have hmap : (List.range 256).filterMap (fun j => (A.states s).transitions.tableOf (UInt8.ofNat j)) =
        ((List.range 256).map fun j => UInt8.ofNat j).filterMap (A.states s).transitions.tableOf := by
      rw [List.filterMap_map]; rfl
    rw [hmap]
    have hbytes : ((List.range 256).map fun j => UInt8.ofNat j).Nodup :=
      (List.nodup_range 256).map_on fun j hj j' hj' h => by
        rw [List.mem_range] at hj hj'
        rw [← UInt8.toNat_ofNat_of_lt (n := j) hj, ← UInt8.toNat_ofNat_of_lt (n := j') hj', h]
    refine hbytes.filterMap fun c c' x hc hc' => input_unique hI hs (x := x) ?_ ?_
    · simpa [yrAcNextState_eq, AcState.lookup, hd] using hc
    · simpa [yrAcNextState_eq, AcState.lookup, hd] using hc'
  · have hnd := hI.nodup w s hs
    have hl : (A.states s).transitions.listOf.Nodup := List.Nodup.of_map _ hnd
    refine hl.map_on fun x hx y hy h => ?_
    have hx' := listLookup_of_mem hnd hx
    have hy' := listLookup_of_mem hnd hy
    rw [h] at hx'
    exact List.inj_on_of_nodup_map hnd hx hy (input_unique hI hs
      (by simpa [yrAcNextState_eq, AcState.lookup, hd] using hx')
      (by simpa [yrAcNextState_eq, AcState.lookup, hd] using hy'))

theorem parent_unique (hI : TrieInv A root) {w w' : List UInt8} {x y t : Nat}
    (hx : reach A root w = some x) (hy : reach A root w' = some y) (htx : t ∈ children A x)
    (hty : t ∈ children A y) : x = y := by
  obtain ⟨c, hc⟩ := (mem_children hI hx t).mp htx
  obtain ⟨c', hc'⟩ := (mem_children hI hy t).mp hty
  have h₁ : reach A root (w ++ [c]) = some t := by rw [reach_append_singleton, hx]; exact hc
  have h₂ : reach A root (w' ++ [c']) = some t := by rw [reach_append_singleton, hy]; exact hc'
  obtain ⟨rfl, -⟩ := List.append_inj' (hI.inj _ _ t h₁ h₂) rfl
  exact Option.some.inj (hx.symm.trans hy)

end Children

/-- The states at distance `k` from `root`, in the order the traversal queues them: the
children of each state of the level before, in the order `children` lists them. -/
def level (A : Arena) (root : Nat) : Nat → List Nat
  | 0 => [root]
  | k + 1 => (level A root k).flatMap (children A)

def levels (A : Arena) (root k : Nat) : Nat → List Nat
  | 0 => []
  | d + 1 => level A root k ++ levels A root (k + 1) d

section Levels

variable (hI : TrieInv A root)
include hI

theorem mem_level (k v : Nat) :
    v ∈ level A root k ↔ ∃ w, reach A root w = some v ∧ w.length = k := by
  induction k generalizing v with
  | zero =>
    simp only [level, List.mem_singleton, List.length_eq_zero, exists_eq_right]
    exact ⟨fun h => h ▸ rfl, fun h => (Option.some.inj h).symm⟩
  | succ k ih =>
    simp only [level, List.mem_flatMap, ih]
    constructor
    · rintro ⟨x, ⟨w, hw, rfl⟩, hv⟩
      obtain ⟨c, hc⟩ := (mem_children hI hw v).mp hv
      exact ⟨w ++ [c], by rw [reach_append_singleton, hw]; exact hc, by simp⟩
    · rintro ⟨w', hw', hlen⟩
      obtain ⟨w, c, rfl⟩ : ∃ w c, w' = w ++ [c] := by
        rcases List.eq_nil_or_concat w' with rfl | ⟨w, c, rfl⟩
        · simp at hlen
        · exact ⟨w, c, List.concat_eq_append w c⟩
      rw [reach_append_singleton] at hw'
      cases hx : reach A root w with
      | none => simp [hx] at hw'
      | some x =>
        rw [hx] at hw'
        exact ⟨x, ⟨w, hx, by simpa using hlen⟩, (mem_children hI hx v).mpr ⟨c, hw'⟩⟩

theorem level_nodup (k : Nat) : (level A root k).Nodup := by
  induction k with
  | zero => exact List.nodup_singleton root
  | succ k ih =>
    refine List.nodup_flatMap.mpr ⟨fun x hx => ?_, ih.imp_of_mem fun hx hy hne t htx hty => ?_⟩
    · obtain ⟨w, hw, -⟩ := (mem_level hI k x).mp hx
      exact children_nodup hI hw
    · obtain ⟨w, hw, -⟩ := (mem_level hI k _).mp hx
      obtain ⟨w', hw', -⟩ := (mem_level hI k _).mp hy
      exact hne (parent_unique hI hw hw' htx hty)

theorem level_eq_nil {k : Nat} (hk : maxToken < k) : level A root k = [] :=
  List.eq_nil_iff_forall_not_mem.mpr fun v hv => by
    obtain ⟨w, hw, rfl⟩ := (mem_level hI k v).mp hv
    exact absurd (hI.bound w v hw) (by omega)

theorem mem_levels (k d v : Nat) :
    v ∈ levels A root k d ↔ ∃ w, reach A root w = some v ∧ k ≤ w.length ∧ w.length < k + d := by
  induction d generalizing k with
  | zero =>
    simp only [levels, List.not_mem_nil, false_iff, not_exists, not_and]
    intro w _ h₁ h₂
    omega
  | succ d ih =>
    simp only [levels, List.mem_append, mem_level hI, ih]
    constructor
    · rintro (⟨w, hw, rfl⟩ | ⟨w, hw, h₁, h₂⟩)
      · exact ⟨w, hw, le_rfl, by omega⟩
      · exact ⟨w, hw, by omega, by omega⟩
    · rintro ⟨w, hw, h₁, h₂⟩
      rcases Nat.eq_or_lt_of_le h₁ with h | h
      · exact .inl ⟨w, hw, h.symm⟩
      · exact .inr ⟨w, hw, by omega, by omega⟩

theorem levels_nodup (k d : Nat) : (levels A root k d).Nodup := by
  induction d generalizing k with
  | zero => exact List.nodup_nil
  | succ d ih =>
    refine (level_nodup hI k).append (ih (k + 1)) fun v hv hv' => ?_
    obtain ⟨w, hw, rfl⟩ := (mem_level hI _ v).mp hv
    obtain ⟨w', hw', h₁, -⟩ := (mem_levels hI _ d v).mp hv'
    obtain rfl := hI.inj _ _ v hw hw'
    omega

theorem levels_length_lt (d : Nat) : (levels A root 1 d).length < A.stateCount := by
  have hsub : (levels A root 0 (d + 1)).Subperm (List.range A.stateCount) :=
    (levels_nodup hI 0 (d + 1)).subperm fun v hv => by
      obtain ⟨w, hw, -⟩ := (mem_levels hI 0 (d + 1) v).mp hv
      exact List.mem_range.mpr (hI.lt w v hw)
  simpa [levels, level, Nat.succ_le_iff] using hsub.length_le

end Levels

end YaraAhoCorasick.Levels
