import YaraAhoCorasick.Automaton

namespace YaraAhoCorasick.AddString

open YaraAhoCorasick.Tokens YaraAhoCorasick.Automaton

/-- What `yr_ac_add_string` leaves behind: the arena, its return code, and the value it
wrote to `*min_token_length`, if it wrote one. -/
structure AddResult where
  arena : Arena
  result : YrError
  minTokenLength : Option Nat

/-- The `for` loop over the bytes of one token: follow the transition on each byte,
creating the state when there is none. -/
def addPath (A : Arena) (state : Nat) : List UInt8 → Arena × Option Nat
  | [] => (A, some state)
  | c :: w =>
    match yrAcNextState A state c with
    | some next => addPath A next w
    | none =>
      match yrAcCreateState A state c with
      | (A, some next) => addPath A next w
      | (A, none) => (A, none)

/-- The `while (token_length != 0)` loop over the token records of `string`. -/
def addTokens (root : Nat) (string : YrString) :
    Arena → Nat → List TokenRecord → AddResult
  | A, minTokenLength, [] => ⟨A, .success, some minTokenLength⟩
  | A, minTokenLength, r :: rs =>
    let minTokenLength := min r.token.length minTokenLength
    match addPath A root r.token with
    | (A, none) => ⟨A, .insuficientMemory, some minTokenLength⟩
    | (A, some state) =>
      match A.allocate with
      | (true, A) =>
        addTokens root string
          (A.addMatch state ((A.states state).depth + r.backtrack) string) minTokenLength rs
      | (false, A) => ⟨A, .insuficientMemory, some minTokenLength⟩

/-- The records `yr_ac_add_string` reads: those before the first zero length. -/
def tokenRecords (tables : RegexTables) (string : YrString) : List TokenRecord :=
  (yrAcGenTokens tables string maxToken).takeWhile (fun r => r.token.length ≠ 0)

/-- `yr_ac_add_string`. With no token, the string is attached to the root. -/
def yrAcAddString (tables : RegexTables) (A : Arena) (automaton : AcAutomaton)
    (string : YrString) : AddResult :=
  match A.allocate with
  | (false, A) => ⟨A, .insuficientMemory, none⟩
  | (true, A) =>
    match tokenRecords tables string with
    | [] =>
      match A.allocate with
      | (true, A) => ⟨A.addMatch automaton.root 0 string, .success, some 0⟩
      | (false, A) => ⟨A, .insuficientMemory, some 0⟩
    | records => addTokens automaton.root string A maxToken records

theorem addTokens_minTokenLength (root : Nat) (string : YrString) :
    ∀ (rs : List TokenRecord) (A : Arena) (m : Nat),
      (addTokens root string A m rs).result = .success →
        (addTokens root string A m rs).minTokenLength =
          some ((rs.map (·.token.length)).foldl min m)
  | [], _, _, _ => rfl
  | r :: rs, A, m, h => by
    unfold addTokens at h ⊢
    split at h
    · simp at h
    · rename_i B state _
      rcases hB : B.allocate with ⟨_ | _, B'⟩ <;> simp only [hB] at h ⊢
      · simp at h
      · rw [addTokens_minTokenLength root string rs _ _ h, List.map_cons, List.foldl_cons,
          Nat.min_comm]

/-- When `yr_ac_add_string` succeeds, the value it writes to `*min_token_length` is the least
length of the tokens it adds to the automaton, and zero when it adds none. -/
theorem add_string_min_token_length (tables : RegexTables) (A : Arena) (automaton : AcAutomaton)
    (string : YrString) (h : (yrAcAddString tables A automaton string).result = .success) :
    (yrAcAddString tables A automaton string).minTokenLength =
      some (((tokenRecords tables string).map (·.token.length)).min?.getD 0) := by
  have hle : ∀ L ∈ (tokenRecords tables string).map (·.token.length), L ≤ maxToken := by
    simp only [List.mem_map]
    rintro _ ⟨r, hr, rfl⟩
    exact yrAcGenTokens_length_le tables string r ((List.takeWhile_sublist _).subset hr)
  unfold yrAcAddString at h ⊢
  rcases hA : A.allocate with ⟨_ | _, A₁⟩
  · simp [hA] at h
  simp only [hA] at h ⊢
  rcases hrs : tokenRecords tables string with _ | ⟨r, rs⟩
  case nil =>
    simp only [hrs] at h ⊢
    rcases hA₁ : A₁.allocate with ⟨_ | _, A₂⟩
    · simp [hA₁] at h
    · simp only [hA₁, List.map_nil, List.min?_nil, Option.getD_none]
  case cons =>
    simp only [hrs] at h ⊢
    rw [hrs] at hle
    obtain ⟨m, hm⟩ : ∃ m, ((r :: rs).map (·.token.length)).min? = some m := by simp
    rw [addTokens_minTokenLength _ _ _ _ _ h, List.foldl_min, hm, Option.getD_some,
      Option.getD_some, Nat.min_eq_right (hle m (List.min?_eq_some_iff'.mp hm).1)]

def abcAsciiWide : YrString := ⟨false, false, true, true, false, [97, 98, 99], [], []⟩

theorem add_string_min_token_length_abc :
    (yrAcAddString ⟨fun _ => false, fun _ => false⟩
        (yrAcCreateAutomaton (emptyArena fun _ => true)).1 ⟨0⟩ abcAsciiWide).result = .success ∧
      (yrAcAddString ⟨fun _ => false, fun _ => false⟩
          (yrAcCreateAutomaton (emptyArena fun _ => true)).1 ⟨0⟩ abcAsciiWide).minTokenLength =
        some (((tokenRecords ⟨fun _ => false, fun _ => false⟩ abcAsciiWide).map
          (·.token.length)).min?.getD 0) :=
  ⟨rfl, add_string_min_token_length _ _ _ _ rfl⟩

example : (yrAcAddString ⟨fun _ => false, fun _ => false⟩
    (yrAcCreateAutomaton (emptyArena fun _ => true)).1 ⟨0⟩ abcAsciiWide).minTokenLength =
      some 3 := rfl

end YaraAhoCorasick.AddString
