import YaraAhoCorasick.Tokens

namespace YaraAhoCorasick.TokenMatching

open YaraAhoCorasick.Tokens

inductive Seq {α : Type} (R : α → Nat → Nat → Prop) : List α → Nat → Nat → Prop
  | nil (o : Nat) : Seq R [] o o
  | cons {a : α} {as : List α} {o o' o'' : Nat} : R a o o' → Seq R as o' o'' → Seq R (a :: as) o o''

/-- A part of a hex string other than an alternation: a byte under a mask (`0xFF` for a
literal), a jump `[k]` over exactly `k` bytes, or a jump over a range of counts. -/
inductive HexAtom where
  | byte (value mask : UInt8)
  | jump (count : UInt8)
  | rangeJump (lo hi : Nat)

/-- A hex string is a sequence of atoms and of alternations `(a1 | a2 | ...)` whose
alternatives are sequences of atoms. -/
inductive HexItem where
  | atom (a : HexAtom)
  | alternation (alternatives : List (List HexAtom))

def HexAtom.maskElem : HexAtom → MaskElem
  | .byte _ mask => if mask = 0xFF then .literal else .wildcard mask
  | .jump count => .maskExactSkip count
  | .rangeJump _ _ => .maskRangeSkip

def HexAtom.bytes : HexAtom → List UInt8
  | .byte value mask => [value &&& mask]
  | _ => []

def HexItem.maskElems : HexItem → List MaskElem
  | .atom a => [a.maskElem]
  | .alternation alts => (alts.map fun alt => .maskOr :: alt.map HexAtom.maskElem).flatten ++ [.maskOrEnd]

def HexItem.bytes : HexItem → List UInt8
  | .atom a => a.bytes
  | .alternation alts => (alts.map fun alt => alt.flatMap HexAtom.bytes).flatten

/-- The `STRING` of a hex string: its bytes and its mask stream, `MASK_END` being the end of
the list. -/
def hexString (p : List HexItem) : YrString :=
  ⟨true, false, false, false, false, p.flatMap HexItem.bytes, p.flatMap HexItem.maskElems, []⟩

inductive HexAtom.Matches (d : List UInt8) : HexAtom → Nat → Nat → Prop
  | byte {value mask b : UInt8} {o : Nat} :
      d.get? o = some b → b &&& mask = value &&& mask → HexAtom.Matches d (.byte value mask) o (o + 1)
  | jump {count : UInt8} {o : Nat} :
      o + count.toNat ≤ d.length → HexAtom.Matches d (.jump count) o (o + count.toNat)
  | rangeJump {lo hi n o : Nat} :
      lo ≤ n → n ≤ hi → o + n ≤ d.length → HexAtom.Matches d (.rangeJump lo hi) o (o + n)

inductive HexItem.Matches (d : List UInt8) : HexItem → Nat → Nat → Prop
  | atom {a : HexAtom} {o o' : Nat} : a.Matches d o o' → HexItem.Matches d (.atom a) o o'
  | alternation {alts : List (List HexAtom)} {alt : List HexAtom} {o o' : Nat} :
      alt ∈ alts → Seq (HexAtom.Matches d) alt o o' → HexItem.Matches d (.alternation alts) o o'

/-- The hex string `{ (01 [1] 02 | 03 04) 11 22 33 44 }`: its alternatives match three and
two bytes, though each holds two bytes of `string`. -/
def skipAlternation : List HexItem :=
  [.alternation [[.byte 0x01 0xFF, .jump 1, .byte 0x02 0xFF], [.byte 0x03 0xFF, .byte 0x04 0xFF]],
    .atom (.byte 0x11 0xFF), .atom (.byte 0x22 0xFF), .atom (.byte 0x33 0xFF),
    .atom (.byte 0x44 0xFF)]

/-- `_yr_ac_gen_hex_tokens` adds a jump inside an alternative to the backtrack of what follows:
`11 22 33 44` gets backtrack 3, while a match through the second has it at 2. -/
theorem gen_hex_tokens_skip_in_alternation :
    yrAcGenHexTokens (hexString skipAlternation) maxToken = [⟨3, [0x11, 0x22, 0x33, 0x44]⟩] ∧
      Seq (HexItem.Matches [0x03, 0x04, 0x11, 0x22, 0x33, 0x44]) skipAlternation 0 6 ∧
      [0x03, 0x04, 0x11, 0x22, 0x33, 0x44].get? (0 + 3) ≠ some 0x11 :=
  ⟨rfl,
    .cons (.alternation (List.mem_cons_of_mem _ (List.mem_singleton_self _))
      (.cons (.byte rfl rfl) (.cons (.byte rfl rfl) (.nil 2))))
    (.cons (.atom (.byte rfl rfl)) (.cons (.atom (.byte rfl rfl))
      (.cons (.atom (.byte rfl rfl)) (.cons (.atom (.byte rfl rfl)) (.nil 6))))),
    by decide⟩

/-- A regular expression over bytes. -/
inductive Regex where
  | char (c : UInt8)
  | any
  | concat (r s : Regex)
  | alt (r s : Regex)
  | star (r : Regex)

def Regex.isAlt : Regex → Bool
  | .alt _ _ => true
  | _ => false

def parenthesize (group : Bool) (source : List UInt8) : List UInt8 :=
  if group then '('.toUInt8 :: source ++ [')'.toUInt8] else source

/-- The source of a regular expression in YARA's syntax; alternations are parenthesised as
operands of a concatenation, and every operand of `*`. -/
def Regex.source : Regex → List UInt8
  | .char c => [c]
  | .any => ['.'.toUInt8]
  | .concat r s => parenthesize r.isAlt r.source ++ parenthesize s.isAlt s.source
  | .alt r s => r.source ++ '|'.toUInt8 :: s.source
  | .star r => parenthesize true r.source ++ ['*'.toUInt8]

/-- The characters YARA's regular expressions give a meaning other than themselves: the
backslash, `^ $ . | ? * + ( ) [ ]` and the braces. -/
def regexMeta : List UInt8 := [92, 94, 36, 46, 124, 63, 42, 43, 40, 41, 91, 93, 123, 125]

def Regex.charsLiteral : Regex → Bool
  | .char c => decide (c ∉ regexMeta)
  | .any => true
  | .concat r s | .alt r s => r.charsLiteral && s.charsLiteral
  | .star r => r.charsLiteral

inductive Regex.Matches (d : List UInt8) : Regex → Nat → Nat → Prop
  | char {c : UInt8} {o : Nat} : d.get? o = some c → Regex.Matches d (.char c) o (o + 1)
  | any {o : Nat} : o < d.length → Regex.Matches d .any o (o + 1)
  | concat {r s : Regex} {o o' o'' : Nat} :
      r.Matches d o o' → s.Matches d o' o'' → Regex.Matches d (.concat r s) o o''
  | altLeft {r s : Regex} {o o' : Nat} : r.Matches d o o' → Regex.Matches d (.alt r s) o o'
  | altRight {r s : Regex} {o o' : Nat} : s.Matches d o o' → Regex.Matches d (.alt r s) o o'
  | starNil {r : Regex} {o : Nat} : Regex.Matches d (.star r) o o
  | starCons {r : Regex} {o o' o'' : Nat} :
      r.Matches d o o' → Regex.Matches d (.star r) o' o'' → Regex.Matches d (.star r) o o''

def regexpString (source : List UInt8) : YrString :=
  ⟨false, true, true, false, false, source, [], []⟩

def aOrB : Regex := .alt (.char 97) (.char 98)

/-- `_yr_ac_gen_regexp_tokens` takes the source up to a metacharacter, whatever follows: for
`a|b` its one token begins with `a`, which a match on `b` does not. -/
theorem gen_regexp_tokens_alternation (tables : RegexTables)
    (ha : tables.isregexhashable 97 = true) :
    ∃ t, yrAcGenRegexpTokens tables (regexpString aOrB.source) maxToken = [⟨0, t⟩] ∧
      aOrB.Matches [98] 0 1 ∧ ¬ t <+: [98] := by
  have hscan : regexpTokenScan tables maxToken [] [97, 124, 98] =
      regexpTokenScan tables maxToken [97] [124, 98] := by
    rw [regexpTokenScan, if_pos (by decide), if_neg fun h => absurd h.1 (by decide),
      if_pos ⟨ha, by decide, by decide, by decide⟩]
    rfl
  have hpre := regexpTokenScan_prefix tables maxToken [97] [124, 98]
  have hpos : 0 < (regexpTokenScan tables maxToken [97] [124, 98]).length :=
    lt_of_lt_of_le (by decide) hpre.length_le
  refine ⟨_, ?_, .altRight (.char rfl), fun h => by simpa using hpre.trans h⟩
  have hsrc : (regexpString aOrB.source).string = [97, 124, 98] := rfl
  simp only [yrAcGenRegexpTokens, hsrc, List.headD_cons,
    if_neg (show (97 : UInt8) ≠ '^'.toUInt8 by decide), hscan, if_pos hpos, literalTokens]
  rfl

def letterTables : RegexTables := ⟨fun _ => false, isLetter⟩

theorem gen_regexp_tokens_alternation_letters :
    letterTables.isregexhashable 97 = true ∧
      ∃ t, yrAcGenRegexpTokens letterTables (regexpString aOrB.source) maxToken = [⟨0, t⟩] ∧
        aOrB.Matches [98] 0 1 ∧ ¬ t <+: [98] :=
  ⟨rfl, gen_regexp_tokens_alternation letterTables rfl⟩

end YaraAhoCorasick.TokenMatching
