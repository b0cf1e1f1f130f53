import Mathlib
import YaraAhoCorasick.Tokens

namespace YaraAhoCorasick.CaseCombinations

open YaraAhoCorasick.Tokens

def letterPositions (w : List UInt8) : List Nat :=
  (List.range w.length).filter fun i => isLetter (w.getD i 0)

def toggleCase (w : List UInt8) (S : List Nat) : List UInt8 :=
  w.mapIdx fun i c => if i ∈ S then swapCase c else c

def lettersFrom (t : List UInt8) (o : Nat) : List Nat :=
  (List.range' o (t.length - o)).filter fun i => isLetter (t.getD i 0)

theorem swapCase_ne (c : UInt8) : swapCase c ≠ c := by
  unfold swapCase
  split_ifs
  · exact fun h => absurd (sub_eq_self.mp h) (by decide)
  · exact fun h => absurd (add_right_eq_self.mp h) (by decide)

theorem letterPositions_eq (w : List UInt8) : letterPositions w = lettersFrom w 0 := by
  rw [letterPositions, lettersFrom, List.range_eq_range', Nat.sub_zero]

theorem lettersFrom_succ {t : List UInt8} {o : Nat} (ho : o < t.length) :
    lettersFrom t o = (if isLetter (t.getD o 0) then [o] else []) ++ lettersFrom t (o + 1) := by
  rw [lettersFrom, show t.length - o = (t.length - (o + 1)) + 1 by omega, List.range'_succ,
    List.filter_cons]
  split_ifs <;> rfl

theorem lettersFrom_of_le {t : List UInt8} {o : Nat} (ho : t.length ≤ o) : lettersFrom t o = [] := by
  rw [lettersFrom, Nat.sub_eq_zero_of_le ho]
  rfl

theorem lettersFrom_set (t : List UInt8) (o : Nat) (x : UInt8) :
    lettersFrom (t.set o x) (o + 1) = lettersFrom t (o + 1) := by
  rw [lettersFrom, lettersFrom, List.length_set]
  refine List.filter_congr fun i hi => ?_
  rw [List.mem_range'_1] at hi
  simp only [List.getD_eq_getElem?_getD, List.getElem?_set_ne (show o ≠ i by omega)]

theorem lettersFrom_sorted (t : List UInt8) (o : Nat) : (lettersFrom t o).Sorted (· < ·) :=
  (List.pairwise_lt_range' o (t.length - o)).filter _

theorem mem_lettersFrom {t : List UInt8} {o i : Nat} :
    i ∈ lettersFrom t o ↔ o ≤ i ∧ i < t.length ∧ isLetter (t.getD i 0) = true := by
  rw [lettersFrom, List.mem_filter, List.mem_range'_1]
  constructor
  · rintro ⟨⟨h₁, h₂⟩, h₃⟩
    exact ⟨h₁, by omega, h₃⟩
  · rintro ⟨h₁, h₂, h₃⟩
    exact ⟨⟨h₁, by omega⟩, h₃⟩

theorem toggleCase_nil (t : List UInt8) : toggleCase t [] = t := by
  apply List.ext_getElem (by simp [toggleCase])
  intro i h₁ h₂
  simp [toggleCase]

theorem toggleCase_cons (t : List UInt8) {o : Nat} {S : List Nat} (hS : o ∉ S) :
    toggleCase t (o :: S) = toggleCase (t.set o (swapCase (t.getD o 0))) S := by
  apply List.ext_getElem (by simp [toggleCase])
  intro i h₁ h₂
  simp only [toggleCase, List.getElem_mapIdx, List.getElem_set, List.mem_cons]
  by_cases hio : i = o
  · subst hio
    simp [hS, List.getD_eq_getElem?_getD, List.getElem?_eq_getElem (by simpa [toggleCase] using h₁)]
  · simp [hio, Ne.symm hio]

theorem sublists'_eq_nil_cons (l : List Nat) :
    l.sublists' = [] :: l.sublists'.filter (· ≠ []) := by
  induction l with
  | nil => rfl
  | cons a l ih =>
    rw [List.sublists'_cons, ih]
    simp [List.filter_append, List.filter_map, Function.comp_def]

theorem toggleCase_inj {t : List UInt8} {o : Nat} {S₁ S₂ : List Nat}
    (h₁ : S₁.Sublist (lettersFrom t o)) (h₂ : S₂.Sublist (lettersFrom t o))
    (h : toggleCase t S₁ = toggleCase t S₂) : S₁ = S₂ := by
  have hmem : ∀ {S S' : List Nat}, S.Sublist (lettersFrom t o) →
      toggleCase t S = toggleCase t S' → ∀ i ∈ S, i ∈ S' := by
    intro S S' hS heq i hi
    obtain ⟨-, hlt, -⟩ := mem_lettersFrom.mp (hS.subset hi)
    by_contra hi'
    have := congrArg (fun w => w.getD i 0) heq
    simp only [toggleCase, List.getD_eq_getElem?_getD, List.getElem?_mapIdx,
      List.getElem?_eq_getElem hlt, Option.map_some', Option.getD_some, if_pos hi, if_neg hi'] at this
    exact swapCase_ne _ this
  have hs₁ := (lettersFrom_sorted t o).sublist h₁
  have hs₂ := (lettersFrom_sorted t o).sublist h₂
  refine List.eq_of_perm_of_sorted ((List.perm_ext_iff_of_nodup hs₁.nodup hs₂.nodup).mpr
    fun i => ⟨hmem h₁ h i, hmem h₂ h.symm i⟩) hs₁ hs₂

theorem caseCombinations_perm (L : Nat) (b : Int) :
    ∀ fuel (t : List UInt8) o, t.length = L → o < L → L - o ≤ fuel →
      ((caseCombinations L b fuel t o).map (·.token)).Perm
        (((lettersFrom t o).sublists'.filter (· ≠ [])).map (toggleCase t))
  | 0, _, _, _, ho, hf => absurd hf (by omega)
  | fuel + 1, t, o, ht, ho, hf => by
    have hrest : ∀ t' : List UInt8, t'.length = L →
        ((if o + 1 < L then caseCombinations L b fuel t' (o + 1) else []).map (·.token)).Perm
          (((lettersFrom t' (o + 1)).sublists'.filter (· ≠ [])).map (toggleCase t')) := by
      intro t' ht'
      split_ifs with ho'
      · exact caseCombinations_perm L b fuel t' (o + 1) ht' ho' (by omega)
      · rw [lettersFrom_of_le (by omega)]
        rfl
    rw [lettersFrom_succ (by omega)]
    by_cases hl : isLetter (t.getD o 0)
    · set t' := t.set o (swapCase (t.getD o 0)) with ht'
      have hQ : ∀ S ∈ (lettersFrom t (o + 1)).sublists', o ∉ S := fun S hS ho' => by
        have := (mem_lettersFrom.mp ((List.mem_sublists'.mp hS).subset ho')).1
        omega
      have htail : ((lettersFrom t (o + 1)).sublists'.map (List.cons o)).map (toggleCase t) =
          t' :: (((lettersFrom t' (o + 1)).sublists'.filter (· ≠ [])).map (toggleCase t')) := by
        rw [lettersFrom_set, List.map_map]
        conv_lhs => rw [sublists'_eq_nil_cons]
        rw [List.map_cons, Function.comp_apply, toggleCase_cons t (List.not_mem_nil o),
          toggleCase_nil]
        exact congrArg _ (List.map_congr_left fun S hS =>
          toggleCase_cons t (hQ S (List.mem_of_mem_filter hS)))
      have hsplit : ((o :: lettersFrom t (o + 1)).sublists'.filter (· ≠ [])).map (toggleCase t) =
          ((lettersFrom t (o + 1)).sublists'.filter (· ≠ [])).map (toggleCase t) ++
            ((lettersFrom t (o + 1)).sublists'.map (List.cons o)).map (toggleCase t) := by
        rw [List.sublists'_cons, List.filter_append, List.map_append]
        congr 2
        exact List.filter_eq_self.mpr fun a ha => by
          obtain ⟨S, -, rfl⟩ := List.mem_map.mp ha
          simp
      rw [if_pos hl, List.singleton_append, hsplit, htail]
      simp only [caseCombinations, hl, ↓reduceIte, List.map_append, List.map_cons]
      exact (hrest t ht).append ((hrest t' (by simp [ht', ht])).cons t')
    · rw [if_neg hl, List.nil_append]
      simp only [caseCombinations, hl, Bool.false_eq_true, ↓reduceIte]
      exact hrest t ht

/-- The bytes of `*((int*) p) = v`: `sizeof(int)` bytes, least significant first. -/
def intBytes (v : Int) : List UInt8 :=
  (List.range sizeofInt).map fun i => UInt8.ofNat ((v % 2 ^ (8 * sizeofInt)).toNat / 2 ^ (8 * i))

/-- The bytes of a record `[length] [backtrack] [token]` in the output buffer. -/
def recordBytes (r : TokenRecord) : List UInt8 :=
  intBytes r.token.length ++ intBytes r.backtrack ++ r.token

def writeBytes (mem : Nat → UInt8) (addr : Nat) : List UInt8 → Nat → UInt8
  | [] => mem
  | b :: bs => writeBytes (Function.update mem addr b) (addr + 1) bs

def readBytes (mem : Nat → UInt8) (addr : Nat) : Nat → List UInt8
  | 0 => []
  | n + 1 => mem addr :: readBytes mem (addr + 1) n

/-- The recursion of `_yr_ac_gen_case_combinations` on memory from `tokenOffset`: a new token is
copied into the buffer and read back from there by the recursive call. -/
def caseCombinationsAt (tokenLength : Nat) (tokenBacktrack : Int) :
    Nat → (Nat → UInt8) → Nat → Nat → Nat → (Nat → UInt8) × Nat
  | 0, mem, _, _, outputBuffer => (mem, outputBuffer)
  | fuel + 1, mem, token, tokenOffset, outputBuffer =>
    let (mem, outputBuffer) := if tokenOffset + 1 < tokenLength then
        caseCombinationsAt tokenLength tokenBacktrack fuel mem token (tokenOffset + 1) outputBuffer
      else (mem, outputBuffer)
    let c := mem (token + tokenOffset)
    if isLetter c then
      let mem := writeBytes mem outputBuffer (intBytes tokenLength)
      let outputBuffer := outputBuffer + sizeofInt
      let mem := writeBytes mem outputBuffer (intBytes tokenBacktrack)
      let outputBuffer := outputBuffer + sizeofInt
      let mem := writeBytes mem outputBuffer (readBytes mem token tokenLength)
      let newToken := outputBuffer
      let outputBuffer := outputBuffer + tokenLength
      let b := mem (newToken + tokenOffset)
      let mem := Function.update mem (newToken + tokenOffset)
        (if 'a'.toUInt8 ≤ c && c ≤ 'z'.toUInt8 then b - 32 else b + 32)
      if tokenOffset + 1 < tokenLength then
        caseCombinationsAt tokenLength tokenBacktrack fuel mem newToken (tokenOffset + 1) outputBuffer
      else (mem, outputBuffer)
    else (mem, outputBuffer)

def yrAcGenCaseCombinationsAt (mem : Nat → UInt8) (token tokenLength tokenOffset : Nat)
    (tokenBacktrack : Int) (outputBuffer : Nat) : (Nat → UInt8) × Nat :=
  caseCombinationsAt tokenLength tokenBacktrack (tokenLength - tokenOffset) mem token tokenOffset
    outputBuffer

section Memory

variable {mem mem' : Nat → UInt8}

@[simp] theorem readBytes_length (mem : Nat → UInt8) (addr n : Nat) :
    (readBytes mem addr n).length = n := by
  induction n generalizing addr <;> simp [readBytes, *]

theorem intBytes_length (v : Int) : (intBytes v).length = sizeofInt := by
  simp [intBytes]

theorem readBytes_add (mem : Nat → UInt8) (addr m n : Nat) :
    readBytes mem addr (m + n) = readBytes mem addr m ++ readBytes mem (addr + m) n := by
  induction m generalizing addr with
  | zero => simp [readBytes]
  | succ m ih =>
    rw [Nat.succ_add, readBytes, ih, readBytes, List.cons_append, Nat.add_right_comm, Nat.add_assoc]

theorem readBytes_congr {addr n : Nat} (h : ∀ i < n, mem' (addr + i) = mem (addr + i)) :
    readBytes mem' addr n = readBytes mem addr n := by
  induction n generalizing addr with
  | zero => rfl
  | succ n ih =>
    simp only [readBytes, List.cons.injEq]
    exact ⟨by simpa using h 0 (Nat.succ_pos n), ih fun i hi => by
      simpa [Nat.add_assoc, Nat.add_comm 1 i] using h (i + 1) (by omega)⟩

theorem getD_readBytes (mem : Nat → UInt8) (addr : Nat) {n i : Nat} (hi : i < n) :
    (readBytes mem addr n).getD i 0 = mem (addr + i) := by
  induction n generalizing addr i with
  | zero => omega
  | succ n ih =>
    rcases i with _ | i
    · rfl
    · simp only [readBytes, List.getD_cons_succ]
      rw [ih (addr + 1) (by omega), Nat.add_assoc, Nat.add_comm 1 i]

theorem writeBytes_of_not_mem (mem : Nat → UInt8) {addr a : Nat} {bytes : List UInt8}
    (h : a < addr ∨ addr + bytes.length ≤ a) : writeBytes mem addr bytes a = mem a := by
  induction bytes generalizing mem addr with
  | nil => rfl
  | cons b bs ih =>
    rw [writeBytes, ih _ (by simp at h; omega), Function.update_noteq (by simp at h; omega)]

theorem readBytes_writeBytes (mem : Nat → UInt8) (addr : Nat) (bytes : List UInt8) :
    readBytes (writeBytes mem addr bytes) addr bytes.length = bytes := by
  induction bytes generalizing mem addr with
  | nil => rfl
  | cons b bs ih =>
    simp only [List.length_cons, readBytes, writeBytes, ih, List.cons.injEq, and_true]
    rw [writeBytes_of_not_mem _ (.inl (Nat.lt_succ_self addr)), Function.update_same]

theorem readBytes_update (mem : Nat → UInt8) (addr : Nat) {n o : Nat} (ho : o < n) (x : UInt8) :
    readBytes (Function.update mem (addr + o) x) addr n = (readBytes mem addr n).set o x := by
  induction n generalizing addr o with
  | zero => omega
  | succ n ih =>
    rcases o with _ | o
    · simp only [readBytes, Nat.add_zero, Function.update_same, List.set_cons_zero, List.cons.injEq,
        true_and]
      exact readBytes_congr fun i _ => Function.update_noteq (by omega) _ _
    · simp only [readBytes, List.set_cons_succ, List.cons.injEq]
      exact ⟨Function.update_noteq (by omega) _ _, by
        rw [← ih (addr + 1) (by omega), Nat.add_assoc, Nat.add_comm 1 o]⟩

end Memory

/-- A run from `out` that wrote exactly `bytes` there, ended right after them, and left every
other address of `mem` as it was. -/
def WritesAt (mem : Nat → UInt8) (out : Nat) (bytes : List UInt8) (r : (Nat → UInt8) × Nat) :
    Prop :=
  r.2 = out + bytes.length ∧ readBytes r.1 out bytes.length = bytes ∧
    ∀ a, a < out ∨ out + bytes.length ≤ a → r.1 a = mem a

theorem writesAt_nil (mem : Nat → UInt8) (out : Nat) : WritesAt mem out [] (mem, out) :=
  ⟨rfl, rfl, fun _ _ => rfl⟩

theorem WritesAt.append {mem : Nat → UInt8} {out : Nat} {B₁ B₂ : List UInt8}
    {r₁ r : (Nat → UInt8) × Nat} (h₁ : WritesAt mem out B₁ r₁) (h₂ : WritesAt r₁.1 r₁.2 B₂ r) :
    WritesAt mem out (B₁ ++ B₂) r := by
  obtain ⟨he₁, hr₁, hf₁⟩ := h₁
  obtain ⟨he₂, hr₂, hf₂⟩ := h₂
  rw [he₁] at he₂ hr₂ hf₂
  refine ⟨by rw [he₂, List.length_append, Nat.add_assoc], ?_, fun a ha => ?_⟩
  · have hB₁ : readBytes r.1 out B₁.length = readBytes r₁.1 out B₁.length :=
      readBytes_congr fun i hi => hf₂ _ (.inl (by omega))
    rw [List.length_append, readBytes_add, hr₂, hB₁, hr₁]
  · rw [hf₂ a (by simp at ha; omega), hf₁ a (by simp at ha; omega)]

theorem writesAt_writeBytes (mem : Nat → UInt8) (addr : Nat) (bytes : List UInt8) {n : Nat}
    (hn : bytes.length = n) : WritesAt mem addr bytes (writeBytes mem addr bytes, addr + n) :=
  ⟨by rw [hn], readBytes_writeBytes mem addr bytes, fun _ ha => writeBytes_of_not_mem mem ha⟩

theorem WritesAt.update {mem : Nat → UInt8} {out : Nat} {B : List UInt8} {r : (Nat → UInt8) × Nat}
    (h : WritesAt mem out B r) {j : Nat} (hj : j < B.length) (x : UInt8) :
    WritesAt mem out (B.set j x) (Function.update r.1 (out + j) x, r.2) := by
  obtain ⟨he, hr, hf⟩ := h
  refine ⟨by rw [he, List.length_set], by rw [List.length_set, readBytes_update _ _ hj, hr],
    fun a ha => ?_⟩
  rw [List.length_set] at ha
  exact (Function.update_noteq (by omega) _ _).trans (hf a ha)

theorem writesAt_record (mem : Nat → UInt8) {token out L o : Nat} (b : Int) (ho : o < L)
    (hsep : ∀ i < L, token + i < out ∨ out + (sizeofInt + sizeofInt + L) ≤ token + i)
    {mem₁ mem₂ : Nat → UInt8}
    (h₁ : mem₁ = writeBytes (writeBytes mem out (intBytes L)) (out + sizeofInt) (intBytes b))
    (h₂ : mem₂ = writeBytes mem₁ (out + sizeofInt + sizeofInt) (readBytes mem₁ token L)) :
    WritesAt mem out (recordBytes ⟨b, (readBytes mem token L).set o (swapCase (mem (token + o)))⟩)
        (Function.update mem₂ (out + sizeofInt + sizeofInt + o)
          (if 'a'.toUInt8 ≤ mem (token + o) && mem (token + o) ≤ 'z'.toUInt8 then
            mem₂ (out + sizeofInt + sizeofInt + o) - 32
          else mem₂ (out + sizeofInt + sizeofInt + o) + 32),
          out + sizeofInt + sizeofInt + L) ∧
      readBytes (Function.update mem₂ (out + sizeofInt + sizeofInt + o)
          (if 'a'.toUInt8 ≤ mem (token + o) && mem (token + o) ≤ 'z'.toUInt8 then
            mem₂ (out + sizeofInt + sizeofInt + o) - 32
          else mem₂ (out + sizeofInt + sizeofInt + o) + 32))
        (out + sizeofInt + sizeofInt) L = (readBytes mem token L).set o (swapCase (mem (token + o))) := by
  have hI := intBytes_length
  have hW : WritesAt mem out (intBytes L ++ intBytes b ++ readBytes mem₁ token L)
      (mem₂, out + sizeofInt + sizeofInt + L) := by
    subst h₁ h₂
    exact ((writesAt_writeBytes mem out _ (hI L)).append
      (writesAt_writeBytes _ _ _ (hI b))).append (writesAt_writeBytes _ _ _ (readBytes_length _ _ _))
  have htok : readBytes mem₁ token L = readBytes mem token L := readBytes_congr fun i hi => by
    rw [h₁, writeBytes_of_not_mem _ (by rw [hI]; rcases hsep i hi with h | h <;> omega),
      writeBytes_of_not_mem _ (by rw [hI]; rcases hsep i hi with h | h <;> omega)]
  have hcopy : readBytes mem₂ (out + sizeofInt + sizeofInt) L = readBytes mem token L := by
    rw [h₂, ← htok]
    simpa using readBytes_writeBytes mem₁ (out + sizeofInt + sizeofInt) (readBytes mem₁ token L)
  have hc : mem₂ (out + sizeofInt + sizeofInt + o) = mem (token + o) := by
    rw [← getD_readBytes mem₂ _ ho, hcopy, getD_readBytes mem _ ho]
  have hsw : (if 'a'.toUInt8 ≤ mem (token + o) && mem (token + o) ≤ 'z'.toUInt8 then
      mem (token + o) - 32 else mem (token + o) + 32) = swapCase (mem (token + o)) := rfl
  rw [hc, hsw]
  have hR := hW.update (j := sizeofInt + sizeofInt + o)
    (by simp only [List.length_append, hI, readBytes_length]; omega)
    (swapCase (mem (token + o)))
  rw [List.set_append_right _ _ (by simp only [List.length_append, hI]; omega), htok] at hR
  simp only [List.length_append, hI, Nat.add_sub_cancel_left, ← Nat.add_assoc] at hR
  exact ⟨by simpa [recordBytes, hI] using hR, by rw [readBytes_update _ _ ho, hcopy]⟩

theorem caseCombinations_succ (L : Nat) (b : Int) (fuel : Nat) (t : List UInt8) (o : Nat) :
    caseCombinations L b (fuel + 1) t o =
      (if o + 1 < L then caseCombinations L b fuel t (o + 1) else []) ++
        if isLetter (t.getD o 0) then
          ⟨b, t.set o (swapCase (t.getD o 0))⟩ ::
            if o + 1 < L then caseCombinations L b fuel (t.set o (swapCase (t.getD o 0))) (o + 1)
            else []
        else [] := by
  simp only [caseCombinations]
  split_ifs <;> simp

theorem caseCombinationsAt_writes (L : Nat) (b : Int) :
    ∀ fuel mem token o out, o < L →
      (∀ i < L, token + i < out ∨
        out + ((caseCombinations L b fuel (readBytes mem token L) o).flatMap recordBytes).length ≤
          token + i) →
      WritesAt mem out ((caseCombinations L b fuel (readBytes mem token L) o).flatMap recordBytes)
        (caseCombinationsAt L b fuel mem token o out)
  | 0, mem, _, _, out, _, _ => writesAt_nil mem out
  | fuel + 1, mem, token, o, out, ho, hsep => by
    rw [caseCombinations_succ] at hsep ⊢
    simp only [List.flatMap_append, List.length_append] at hsep
    set t := readBytes mem token L with ht
    have htL : t.length = L := readBytes_length mem token L
    have h₁ : WritesAt mem out
        ((if o + 1 < L then caseCombinations L b fuel t (o + 1) else []).flatMap recordBytes)
        (if o + 1 < L then caseCombinationsAt L b fuel mem token (o + 1) out else (mem, out)) := by
      split_ifs with ho'
      · refine caseCombinationsAt_writes L b fuel mem token (o + 1) out ho' fun i hi =>
          (hsep i hi).imp_right fun h => ?_
        rw [if_pos ho'] at h
        rw [← ht]
        omega
      · exact writesAt_nil mem out
    rcases hr : (if o + 1 < L then caseCombinationsAt L b fuel mem token (o + 1) out
      else (mem, out)) with ⟨mem₁, out₁⟩
    rw [hr] at h₁
    have hout₁ := h₁.1
    have htok : readBytes mem₁ token L = t := readBytes_congr fun i hi => h₁.2.2 _ (by
      rcases hsep i hi with h | h <;> simp only at hout₁ <;> omega)
    have hc : mem₁ (token + o) = t.getD o 0 := by rw [← htok, getD_readBytes _ _ ho]
    simp only [caseCombinationsAt, hr]
    by_cases hl : isLetter (t.getD o 0)
    · have hl₁ : isLetter (mem₁ (token + o)) = true := hc ▸ hl
      rw [if_pos hl₁, if_pos hl]
      have hsep₁ : ∀ i < L, token + i < out₁ ∨ out₁ + (sizeofInt + sizeofInt + L) ≤ token + i :=
        fun i hi => by
          simp only at hout₁
          rcases hsep i hi with h | h
          · exact .inl (by omega)
          · simp only [if_pos hl, List.flatMap_cons, recordBytes, List.length_append,
              intBytes_length, List.length_set, htL] at h
            exact .inr (by omega)
      obtain ⟨hR, hcopy⟩ := writesAt_record mem₁ b ho hsep₁ rfl rfl
      have hset : (readBytes mem₁ token L).set o (swapCase (mem₁ (token + o))) =
          t.set o (swapCase (t.getD o 0)) := by rw [htok, hc]
      rw [hset] at hR hcopy
      rw [List.flatMap_append, List.flatMap_cons]
      refine h₁.append (hR.append ?_)
      by_cases ho' : o + 1 < L
      · simp only [if_pos ho']
        rw [← hcopy]
        exact caseCombinationsAt_writes L b fuel _ _ (o + 1) _ ho' fun i hi => .inl (by omega)
      · simp only [if_neg ho']
        exact writesAt_nil _ _
    · rw [if_neg (hc ▸ hl : ¬isLetter (mem₁ (token + o)) = true), if_neg hl, List.append_nil]
      exact h₁

theorem letterPositions_length (w : List UInt8) : (letterPositions w).length = w.countP isLetter := by
  have hw : (List.range w.length).map (fun i => w.getD i 0) = w :=
    List.ext_get (by simp) fun i _ h => by simp [List.getElem?_eq_getElem h]
  conv_rhs => rw [← hw]
  rw [List.countP_map, List.countP_eq_length_filter]
  rfl

theorem length_filter_sublists' (l : List Nat) :
    (l.sublists'.filter (· ≠ [])).length = 2 ^ l.length - 1 := by
  have := congrArg List.length (sublists'_eq_nil_cons l)
  rw [List.length_sublists', List.length_cons] at this
  omega

theorem toggleCase_sublists'_nodup (t : List UInt8) (o : Nat) :
    ((lettersFrom t o).sublists'.map (toggleCase t)).Nodup :=
  (List.nodup_sublists'.mpr (lettersFrom_sorted t o).nodup).map_on fun _ h₁ _ h₂ =>
    toggleCase_inj (List.mem_sublists'.mp h₁) (List.mem_sublists'.mp h₂)

theorem toggleCase_variants_nodup (w : List UInt8) :
    (w :: ((letterPositions w).sublists'.filter (· ≠ [])).map (toggleCase w)).Nodup := by
  have := toggleCase_sublists'_nodup w 0
  rwa [← letterPositions_eq, sublists'_eq_nil_cons, List.map_cons, toggleCase_nil] at this

theorem caseCombinations_variants (w : List UInt8) (b : Int) (hL : 0 < w.length) :
    ((yrAcGenCaseCombinations w w.length 0 b).map (·.token)).Perm
      (((letterPositions w).sublists'.filter (· ≠ [])).map (toggleCase w)) := by
  rw [letterPositions_eq]
  exact caseCombinations_perm w.length b w.length w 0 rfl hL le_rfl

theorem flatMap_recordBytes_length {L : Nat} (recs : List TokenRecord)
    (h : ∀ r ∈ recs, r.token.length = L) :
    (recs.flatMap recordBytes).length = recs.length * (2 * sizeofInt + L) := by
  induction recs with
  | nil => simp
  | cons r rs ih =>
    rw [List.flatMap_cons, List.length_append, ih fun r' h' => h r' (List.mem_cons_of_mem r h'),
      recordBytes, List.length_append, List.length_append, intBytes_length, intBytes_length,
      h r (List.mem_cons_self r rs), List.length_cons, Nat.add_mul, Nat.one_mul]
    omega

/-- `_yr_ac_gen_case_combinations` writes one record per nonempty set of the token's letters
toggled, each once and nothing else, and leaves the token as it was. -/
theorem gen_case_combinations_variants (w : List UInt8) (b : Int) (mem : Nat → UInt8)
    (token out : Nat) (hL : 0 < w.length) (hw : readBytes mem token w.length = w)
    (hsep : token + w.length ≤ out ∨
      out + (2 ^ w.countP isLetter - 1) * (2 * sizeofInt + w.length) ≤ token) :
    WritesAt mem out ((yrAcGenCaseCombinations w w.length 0 b).flatMap recordBytes)
        (yrAcGenCaseCombinationsAt mem token w.length 0 b out) ∧
      readBytes (yrAcGenCaseCombinationsAt mem token w.length 0 b out).1 token w.length = w ∧
      (yrAcGenCaseCombinationsAt mem token w.length 0 b out).2 =
        out + (2 ^ w.countP isLetter - 1) * (2 * sizeofInt + w.length) ∧
      (yrAcGenCaseCombinations w w.length 0 b).length = 2 ^ w.countP isLetter - 1 ∧
      (∀ r ∈ yrAcGenCaseCombinations w w.length 0 b, r.token.length = w.length ∧ r.backtrack = b) ∧
      ((yrAcGenCaseCombinations w w.length 0 b).map (·.token)).Perm
        (((letterPositions w).sublists.filter (· ≠ [])).map (toggleCase w)) ∧
      ((yrAcGenCaseCombinations w w.length 0 b).map (·.token)).Nodup ∧
      ((literalTokens true w).map (·.token)).Perm ((letterPositions w).sublists.map (toggleCase w)) ∧
      ((literalTokens true w).map (·.token)).Nodup := by
  have hsub := List.sublists_perm_sublists' (letterPositions w)
  have hvar := caseCombinations_variants w b hL
  have hrec : ∀ r ∈ yrAcGenCaseCombinations w w.length 0 b,
      r.token.length = w.length ∧ r.backtrack = b :=
    caseCombinations_mem w.length b w.length w 0
  have hlen : (yrAcGenCaseCombinations w w.length 0 b).length = 2 ^ w.countP isLetter - 1 := by
    rw [← List.length_map _ (·.token), hvar.length_eq, List.length_map, length_filter_sublists',
      letterPositions_length]
  have hbytes : ((yrAcGenCaseCombinations w w.length 0 b).flatMap recordBytes).length =
      (2 ^ w.countP isLetter - 1) * (2 * sizeofInt + w.length) := by
    rw [flatMap_recordBytes_length _ fun r hr => (hrec r hr).1, hlen]
  have hfar : ∀ i < w.length, token + i < out ∨
      out + ((yrAcGenCaseCombinations w w.length 0 b).flatMap recordBytes).length ≤ token + i :=
    fun i hi => by rw [hbytes]; omega
  have hW : WritesAt mem out ((yrAcGenCaseCombinations w w.length 0 b).flatMap recordBytes)
      (yrAcGenCaseCombinationsAt mem token w.length 0 b out) := by
    have := caseCombinationsAt_writes w.length b w.length mem token 0 out hL
    rw [hw] at this
    exact this hfar
  have hall : ((letterPositions w).sublists.map (toggleCase w)).Perm
      (w :: ((letterPositions w).sublists'.filter (· ≠ [])).map (toggleCase w)) := by
    refine (hsub.map _).trans ?_
    conv_lhs => rw [sublists'_eq_nil_cons]
    rw [List.map_cons, toggleCase_nil]
  have hlit : ((literalTokens true w).map (·.token)).Perm
      (w :: ((letterPositions w).sublists'.filter (· ≠ [])).map (toggleCase w)) := by
    rw [literalTokens, if_pos rfl, List.map_cons]
    exact (caseCombinations_variants w 0 hL).cons w
  refine ⟨hW, ?_, by rw [hW.1, hbytes], hlen, hrec, hvar.trans ((hsub.filter _).map _).symm,
    hvar.nodup_iff.mpr (toggleCase_variants_nodup w).of_cons, hlit.trans hall.symm,
    hlit.nodup_iff.mpr (toggleCase_variants_nodup w)⟩
  rw [readBytes_congr fun i hi => hW.2.2 _ (hfar i hi), hw]

def abToken : Nat → UInt8 := writeBytes (fun _ => 0) 0 [97, 98]

theorem gen_case_combinations_variants_ab :
    0 < [97, 98].length ∧ readBytes abToken 0 2 = [97, 98] ∧
      (0 + 2 ≤ 2 ∨ 2 + (2 ^ [97, 98].countP isLetter - 1) * (2 * sizeofInt + 2) ≤ 0) ∧
      WritesAt abToken 2 ((yrAcGenCaseCombinations [97, 98] 2 0 0).flatMap recordBytes)
          (yrAcGenCaseCombinationsAt abToken 0 2 0 0 2) ∧
        readBytes (yrAcGenCaseCombinationsAt abToken 0 2 0 0 2).1 0 2 = [97, 98] ∧
        (yrAcGenCaseCombinationsAt abToken 0 2 0 0 2).2 =
          2 + (2 ^ [97, 98].countP isLetter - 1) * (2 * sizeofInt + 2) ∧
        (yrAcGenCaseCombinations [97, 98] 2 0 0).length = 2 ^ [97, 98].countP isLetter - 1 ∧
        (∀ r ∈ yrAcGenCaseCombinations [97, 98] 2 0 0, r.token.length = 2 ∧ r.backtrack = 0) ∧
        ((yrAcGenCaseCombinations [97, 98] 2 0 0).map (·.token)).Perm
          (((letterPositions [97, 98]).sublists.filter (· ≠ [])).map (toggleCase [97, 98])) ∧
        ((yrAcGenCaseCombinations [97, 98] 2 0 0).map (·.token)).Nodup ∧
        ((literalTokens true [97, 98]).map (·.token)).Perm
          ((letterPositions [97, 98]).sublists.map (toggleCase [97, 98])) ∧
        ((literalTokens true [97, 98]).map (·.token)).Nodup :=
  ⟨by decide, by decide, by decide,
    gen_case_combinations_variants [97, 98] 0 abToken 0 2 (by decide) (by decide) (by decide)⟩

end YaraAhoCorasick.CaseCombinations
