import YaraAhoCorasick.Insertions
import YaraAhoCorasick.OwnRecords
import YaraAhoCorasick.TextTokens
import YaraAhoCorasick.HexSoundness
import YaraAhoCorasick.RegexTokens

namespace YaraAhoCorasick.Occurrences

open YaraAhoCorasick.Tokens YaraAhoCorasick.Automaton YaraAhoCorasick.AddString
open YaraAhoCorasick.MatchList YaraAhoCorasick.Insertions YaraAhoCorasick.TokenMatching
open YaraAhoCorasick.CaseCombinations YaraAhoCorasick.TextTokens YaraAhoCorasick.HexSoundness
open YaraAhoCorasick.RegexTokens YaraAhoCorasick.Trie YaraAhoCorasick.OwnRecords

/-- A state whose label `v` `d` holds at `o + k` has `string` in its list with backtrack
`|v| + k`, which leads back to `o`. -/
def Reports (A : Arena) (root : Nat) (string : YrString) (d : List UInt8) (o : Nat) : Prop :=
  ∃ v k s ms, reach A root v = some s ∧ v <+: d.drop (o + k) ∧
    Chain A (A.states s).matchHead ms ∧ (string, (v.length + k : Int)) ∈ entries A ms

/-- The occurrences the token generators are built to catch: the forms of a text string, hex
matches whose alternatives are runs of bytes, and literal regular expressions. -/
inductive Occurs (tables : RegexTables) (d : List UInt8) (o : Nat) : YrString → Prop
  | text {string : YrString} {w : List UInt8} {S : List Nat} :
      string.isHex = false → string.isRegexp = false → w ∈ textForms string →
      S ⊆ letterPositions w → (string.isNoCase = false → S = []) →
      toggleCase w S <+: d.drop o → Occurs tables d o string
  | hex {p : List HexItem} {o' : Nat} :
      (∀ x ∈ p, jumpFree x = true) → Seq (HexItem.Matches d) p o o' →
      Occurs tables d o (hexString p)
  | regexp {string : YrString} {r : Regex} {o' : Nat} :
      HashesNoMeta tables → r.isAlt = false → r.charsLiteral = true → string.isHex = false →
      string.isRegexp = true → string.isNoCase = false → string.string = r.source →
      FirstBytesOf r string.firstBytes → r.Matches d o o' → Occurs tables d o string

variable {tables : RegexTables} {A : Arena} {automaton : AcAutomaton} {strings : List YrString}
  {string : YrString} {d : List UInt8} {o : Nat}

theorem reports_of_insertion (h : Added tables A automaton strings) (hs : string ∈ strings)
    {x : Insertion} (hx : x ∈ insertions tables string) (hxs : x.string = string) (k : Nat)
    (hb : x.backtrack = x.token.length + k) (hocc : x.token <+: d.drop (o + k)) :
    Reports A automaton.root string d o := by
  have hR := h.represents
  have hI : x ∈ strings.flatMap (insertions tables) := List.mem_flatMap.mpr ⟨string, hs, hx⟩
  obtain ⟨s, hst⟩ := (hR.labels x.token).mpr (.inr ⟨x, hI, List.prefix_refl _⟩)
  obtain ⟨ms, hc, -, he⟩ := hR.chains x.token s hst
  refine ⟨x.token, k, s, ms, hst, hocc, hc, ?_⟩
  rw [he, attachedAt, List.mem_reverse, List.mem_map]
  exact ⟨x, List.mem_filter.mpr ⟨hI, by simp⟩, by rw [hxs, hb]⟩

theorem reports_of_tokenRecords (h : Added tables A automaton strings) (hs : string ∈ strings)
    (hocc : tokenRecords tables string = [] ∨ ∃ r ∈ tokenRecords tables string,
      0 ≤ r.backtrack ∧ r.token <+: d.drop (o + r.backtrack.toNat)) :
    Reports A automaton.root string d o := by
  rcases hocc with hnil | ⟨r, hr, hb, hp⟩
  · exact reports_of_insertion h hs (x := ⟨[], string, 0⟩) (by simp [insertions, hnil]) rfl 0
      rfl List.nil_prefix
  · have hx : Insertion.ofRecord string r ∈ insertions tables string := by
      rw [insertions]
      split
      · simp_all
      · exact List.mem_map_of_mem _ hr
    exact reports_of_insertion h hs hx rfl r.backtrack.toNat
      (by simp only [Insertion.ofRecord]; omega) hp

theorem reports_of_genTokens (h : Added tables A automaton strings) (hs : string ∈ strings)
    (hocc : ∀ r ∈ yrAcGenTokens tables string maxToken,
      0 ≤ r.backtrack ∧ r.token <+: d.drop (o + r.backtrack.toNat)) :
    Reports A automaton.root string d o := by
  refine reports_of_tokenRecords h hs ?_
  rcases hrs : tokenRecords tables string with _ | ⟨r, rs⟩
  · exact .inl rfl
  · have hr : r ∈ tokenRecords tables string := hrs ▸ List.mem_cons_self r rs
    exact .inr ⟨r, List.mem_cons_self r rs,
      hocc r ((List.takeWhile_sublist _).subset hr)⟩

theorem Occurs.reports (hocc : Occurs tables d o string) (h : Added tables A automaton strings)
    (hs : string ∈ strings) : Reports A automaton.root string d o := by
  cases hocc with
  | text hhex hre hw hS hcase hocc =>
    obtain ⟨r, hr, hb, hp⟩ :=
      literalTokens_complete string.isNoCase _ (min _ maxToken) hS hcase hocc
    have hr' := (mem_genTokens_text tables string maxToken hhex hre r).mpr ⟨_, hw, hr⟩
    have hlen := textToken_length tables string maxToken hhex hre
    refine reports_of_tokenRecords h hs ?_
    by_cases he : string.string = []
    · refine .inl (List.eq_nil_iff_forall_not_mem.mpr fun r' hr' => ?_)
      have h₁ := List.mem_takeWhile_imp hr'
      have h₂ := hlen r' ((List.takeWhile_sublist _).subset hr')
      rw [he, List.length_nil] at h₂
      simp only [ne_eq, decide_eq_true_eq] at h₁
      omega
    · have hpos : 0 < string.string.length := List.length_pos.mpr he
      have hmem : r ∈ tokenRecords tables string := by
        rw [tokenRecords, List.takeWhile_eq_self_iff.mpr fun r' hr' => ?_]
        · exact hr'
        · have := hlen r' hr'
          simp only [maxToken] at this
          simp only [ne_eq, decide_eq_true_eq]
          omega
      exact .inr ⟨r, hmem, hb ▸ le_rfl, by rw [hb]; simpa using hp⟩
  | @hex p o' hp hm =>
    refine reports_of_genTokens h hs fun r hr => ?_
    rw [yrAcGenTokens, if_pos (show (hexString p).isHex = true from rfl)] at hr
    exact hexTokens_lie_in hp hm maxToken r hr
  | @regexp string r o' hT hr hl hhex hre hnc hsrc hfb hm =>
    have hg : yrAcGenTokens tables string maxToken = yrAcGenRegexpTokens tables string maxToken :=
      by rw [yrAcGenTokens, if_neg (by simp [hhex]), if_pos hre]
    refine reports_of_tokenRecords h hs (.inr ?_)
    rcases regexpTokens_cases hT hr hl hnc hsrc hm maxToken with ⟨t, ht0, ht, hp⟩ | hfirst
    · refine ⟨⟨0, t⟩, ?_, le_rfl, by simpa using hp⟩
      rw [tokenRecords, hg, ht]
      simp [ht0]
    · obtain ⟨b, hb, hget⟩ := hfb d o o' hm
      refine ⟨⟨0, [b]⟩, ?_, le_rfl, by simpa using singleton_prefix_drop hget⟩
      rw [tokenRecords, hg, hfirst, List.takeWhile_eq_self_iff.mpr (by simp)]
      exact List.mem_map_of_mem _ hb

def abNoCaseAutomaton : Arena :=
  (yrAcAddString literalTables (yrAcCreateAutomaton (emptyArena fun _ => true)).1 ⟨0⟩
    abNoCase).arena

theorem abNoCaseAutomaton_added : Added literalTables abNoCaseAutomaton ⟨0⟩ [abNoCase] :=
  .add abNoCase (.create (show yrAcCreateAutomaton (emptyArena fun _ => true) =
    ((yrAcCreateAutomaton (emptyArena fun _ => true)).1, some ⟨0⟩) from rfl)) rfl

theorem insertions_filter_nil (tables : RegexTables) (string : YrString) :
    (insertions tables string).filter (·.token = []) =
      if (tokenRecords tables string).isEmpty then [⟨[], string, 0⟩] else [] := by
  unfold insertions
  rcases hrs : tokenRecords tables string with _ | ⟨r, rs⟩
  · rfl
  · refine List.filter_eq_nil_iff.mpr fun x hx => ?_
    obtain ⟨r', hr', rfl⟩ := List.mem_map.mp hx
    have hlen := List.mem_takeWhile_imp (hrs ▸ hr' : r' ∈ tokenRecords tables string)
    simp only [ne_eq, decide_eq_true_eq] at hlen
    simpa [Insertion.ofRecord] using hlen

theorem attachedAt_nil (tables : RegexTables) (strings : List YrString) :
    attachedAt (strings.flatMap (insertions tables)) [] =
      ((strings.filter fun s => (tokenRecords tables s).isEmpty).map (·, (0 : Int))).reverse := by
  rw [attachedAt]
  congr 1
  induction strings with
  | nil => rfl
  | cons s ss ih =>
    rw [List.flatMap_cons, List.filter_append, List.map_append, ih, insertions_filter_nil,
      List.filter_cons]
    split_ifs <;> rfl

/-- The root's list of a built automaton holds exactly the strings for which `yr_ac_add_string`
read no token, latest first, with backtrack zero. -/
theorem added_root_records (h : Added tables A automaton strings) :
    ∃ ms, Chain A (A.states automaton.root).matchHead ms ∧
      entries A ms =
        ((strings.filter fun s => (tokenRecords tables s).isEmpty).map (·, (0 : Int))).reverse := by
  obtain ⟨ms, hc, -, he⟩ := h.represents.chains [] automaton.root rfl
  exact ⟨ms, hc, he.trans (attachedAt_nil tables strings)⟩

/-- The automaton of `"ab" nocase` after the regular expression `a` is added under tables that
hash no character: its scan reads nothing and its first-byte set is empty. -/
def degenerateAutomaton : Arena :=
  (yrAcAddString literalTables abNoCaseAutomaton ⟨0⟩ (regexpString [97])).arena

theorem added_root_records_degenerate :
    Added literalTables degenerateAutomaton ⟨0⟩ [abNoCase, regexpString [97]] ∧
      ∃ ms, Chain degenerateAutomaton (degenerateAutomaton.states 0).matchHead ms ∧
        entries degenerateAutomaton ms = [(regexpString [97], 0)] :=
  have hb : Added literalTables degenerateAutomaton ⟨0⟩ [abNoCase, regexpString [97]] :=
    .add (regexpString [97]) abNoCaseAutomaton_added rfl
  let ⟨ms, hc, he⟩ := added_root_records hb
  ⟨hb, ms, hc, he.trans rfl⟩

/-- A call of `yr_ac_add_string`, succeeding or failing, keeps every label's state and ends each
list with the entries it had. -/
theorem add_string_keeps_reports (hB : Built tables A automaton) (string : YrString) :
    KeepsEntries A (yrAcAddString tables A automaton string).arena automaton.root :=
  ((Built.ownLists hB).addString_keeps tables string hB.trieInv).2

theorem add_string_keeps_reports_ab :
    Built literalTables abAutomaton ⟨0⟩ ∧
      KeepsEntries abAutomaton (yrAcAddString literalTables abAutomaton ⟨0⟩ abNoCase).arena 0 :=
  ⟨abAutomaton_built, add_string_keeps_reports abAutomaton_built abNoCase⟩

end YaraAhoCorasick.Occurrences
