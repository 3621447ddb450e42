import ScanMatch.Proofs.Scanning
import ScanMatch.Yaml.Codec

/-!
# Documents read back

The tokens of written sections make a mapping of mappings again, and the plain text of a scalar is
read as the scalar. So YAML is a lawful codec wherever numbers are read back from their texts.
-/
namespace ScanMatch.Yaml

def Entry.node (e : Entry) : Node × Node := (.plain e.1, .plain e.2)

def Section.node (s : Section) : Node × Node := (.plain s.1, .mapping (s.2.map Entry.node))

/-- One entry of a mapping. The chain of calls is longest for the value. -/
theorem blockEntries_cons {fuel : Nat} (key : String) {t : Token} {ts ts' rest : List Token}
    {value : Node} {entries : List (Node × Node)}
    (ht : [Token.key, .value, .blockEnd].contains t = false)
    (hvalue : node fuel true true (t :: ts) = some (value, ts'))
    (hrest : blockEntries (fuel + 2) ts' = some (entries, rest)) :
    blockEntries (fuel + 3) (.key :: .plain key :: .value :: t :: ts) =
      some ((.plain key, value) :: entries, rest) := by
  have hkey : nodeUnless (fuel + 2) [.key, .value, .blockEnd] true true
      (.plain key :: .value :: t :: ts) = some (.plain key, .value :: t :: ts) := by
    simp [nodeUnless, goesOn, node]
  have hentry : entryValue (fuel + 2) [.key, .value, .blockEnd] true (.value :: t :: ts) =
      some (value, ts') := by
    rw [entryValue, nodeUnless, if_neg (by simpa [goesOn] using ht), hvalue]
  rw [blockEntries, hkey]
  simp only [Option.bind_eq_bind, Option.bind_some, hentry, hrest]
  rfl

theorem blockEntries_entries (rest : List Token) (entries : List Entry) : ∀ fuel : Nat,
    entries.length + 3 ≤ fuel →
    blockEntries fuel (entries.flatMap Entry.tokens ++ .blockEnd :: rest) =
      some (entries.map Entry.node, rest) := by
  induction entries with
  | nil =>
    intro fuel hfuel
    obtain ⟨fuel, rfl⟩ : ∃ n, fuel = n + 3 := Nat.exists_eq_add_of_le' hfuel
    rfl
  | cons e entries ih =>
    intro fuel hfuel
    rw [List.length_cons] at hfuel
    obtain ⟨fuel, rfl⟩ : ∃ n, fuel = n + 1 + 3 := ⟨fuel - 4, by omega⟩
    exact blockEntries_cons e.1 rfl rfl (ih (fuel + 3) (by omega))

theorem blockEntries_sections (rest : List Token) (sections : List Section) : ∀ fuel : Nat,
    (sections.flatMap Section.tokens).length + 3 ≤ fuel →
    blockEntries fuel (sections.flatMap Section.tokens ++ .blockEnd :: rest) =
      some (sections.map Section.node, rest) := by
  induction sections with
  | nil =>
    intro fuel hfuel
    obtain ⟨fuel, rfl⟩ : ∃ n, fuel = n + 3 := Nat.exists_eq_add_of_le' hfuel
    rfl
  | cons s sections ih =>
    intro fuel hfuel
    have hlength : (s.2.flatMap Entry.tokens).length = s.2.length * 4 := by
      simp only [List.length_flatMap, Entry.tokens, List.length_cons, List.length_nil,
        List.map_const', List.sum_replicate_nat]
    simp only [List.flatMap_cons, List.length_append, Section.tokens, List.length_cons,
      List.length_nil, hlength] at hfuel
    obtain ⟨fuel, rfl⟩ : ∃ n, fuel = n + 1 + 3 := ⟨fuel - 4, by omega⟩
    have hentries := blockEntries_entries
      (sections.flatMap Section.tokens ++ .blockEnd :: rest) s.2 fuel (by omega)
    have hvalue : node (fuel + 1) true true (.blockMapping :: (s.2.flatMap Entry.tokens ++
          .blockEnd :: (sections.flatMap Section.tokens ++ .blockEnd :: rest))) =
        some (.mapping (s.2.map Entry.node),
          sections.flatMap Section.tokens ++ .blockEnd :: rest) := by
      simp [node, hentries]
    have hstep := blockEntries_cons s.1 rfl hvalue (ih (fuel + 3) (by omega))
    simpa [Section.tokens, Section.node] using hstep

theorem document?_sections (sections : List Section) :
    document? (.blockMapping :: (sections.flatMap Section.tokens ++ [.blockEnd])) =
      some (.mapping (sections.map Section.node)) := by
  have hentries := blockEntries_sections [] sections
    (2 * (sections.flatMap Section.tokens).length + 5) (by omega)
  have hfuel : 2 * (.blockMapping :: (sections.flatMap Section.tokens ++ [.blockEnd])).length + 2 =
      2 * (sections.flatMap Section.tokens).length + 5 + 1 := by
    simp
    omega
  have hnode : node (2 * (sections.flatMap Section.tokens).length + 5 + 1) true false
      (.blockMapping :: (sections.flatMap Section.tokens ++ [.blockEnd])) =
        some (.mapping (sections.map Section.node), []) := by
    rw [node]
    simp only [hentries, if_true, Option.map_some]
  simp only [document?, hfuel, hnode, List.all_nil, if_true]

/-! ### Texts -/

/-- The characters that texts are written in. -/
def IsWritten (c : Char) : Prop := c = '\n' ∨ 0x20 ≤ c.toNat ∧ c.toNat ≤ 0x7E

theorem isWritten_of_isWordChar {c : Char} (h : isWordChar c = true) : IsWritten c := by
  delta isWordChar Char.isAlphanum Char.isAlpha Char.isUpper Char.isLower Char.isDigit at h
  simp only [Bool.or_eq_true, Bool.and_eq_true, decide_eq_true_eq, UInt32.le_iff_toNat_le,
    ge_iff_le, List.contains_iff_mem, List.mem_cons, List.not_mem_nil, or_false] at h
  right
  rcases h with ((h | h) | h) | rfl | rfl | rfl | rfl
  · simp at h
    omega
  · simp at h
    omega
  · simp at h
    omega
  all_goals decide

theorem unifyBreaks_of_isWritten {cs : List Char} (h : ∀ c ∈ cs, IsWritten c) :
    unifyBreaks cs = cs := by
  fun_induction unifyBreaks cs with
  | case1 => rfl
  | case2 cs ih => exact absurd (h '\r' List.mem_cons_self) (by unfold IsWritten; decide)
  | case3 c cs hne ih =>
    rw [ih fun d hd => h d (List.mem_cons_of_mem c hd)]
    rcases h c List.mem_cons_self with rfl | hrange
    · rfl
    · have hbreak : isBreak c = false := by
        rw [Bool.eq_false_iff]
        intro hbreak
        simp only [isBreak, Bool.or_eq_true, decide_eq_true_eq] at hbreak
        rcases hbreak with (((rfl | rfl) | rfl) | rfl) | rfl <;> exact absurd hrange (by decide)
      rw [hbreak, if_neg Bool.false_ne_true]

theorem characters?_of_isWritten {text : String} (h : ∀ c ∈ text.toList, IsWritten c) :
    characters? text = some text.toList := by
  rw [characters?, if_pos, unifyBreaks_of_isWritten h]
  rw [List.all_eq_true]
  intro c hc
  rcases h c hc with rfl | hrange
  · rfl
  · simp [isPrintable, hrange]

theorem Entry.Legible.isWritten {e : Entry} (h : Entry.Legible e) :
    ∀ c ∈ Entry.line e, IsWritten c := by
  intro c hc
  simp only [Entry.line, List.mem_append, List.mem_cons, List.mem_replicate, List.not_mem_nil,
    or_false] at hc
  rcases hc with ⟨-, rfl⟩ | hc | rfl | rfl | hc | rfl
  · right; decide
  · exact isWritten_of_isWordChar (h.key.word c hc)
  · right; decide
  · right; decide
  · exact isWritten_of_isWordChar (h.value.word c hc)
  · exact .inl rfl

theorem Section.Legible.isWritten {s : Section} (h : Section.Legible s) :
    ∀ c ∈ Section.lines s, IsWritten c := by
  intro c hc
  simp only [Section.lines, List.mem_append, List.mem_cons, List.mem_flatMap] at hc
  rcases hc with hc | rfl | rfl | ⟨e, he, hc⟩
  · exact isWritten_of_isWordChar (h.key.word c hc)
  · right; decide
  · exact .inl rfl
  · exact (h.entry e he).isWritten c hc

theorem toList_render (sections : List Section) :
    (render sections).toList = sections.flatMap Section.lines := by
  have hentry : ∀ e : Entry, ("  " ++ e.1 ++ ": " ++ e.2 ++ "\n").toList = Entry.line e := by
    simp [Entry.line]
  have hsection : ∀ s : Section,
      (s.1 ++ ":\n" ++ String.join (s.2.map fun e =>
        "  " ++ e.1 ++ ": " ++ e.2 ++ "\n")).toList = Section.lines s := by
    intro s
    simp only [String.toList_append, String.toList_join, List.flatMap_map, hentry]
    simp [Section.lines]
  have hrender : render sections = String.join (sections.map fun s : Section =>
      s.1 ++ ":\n" ++ String.join (s.2.map fun e => "  " ++ e.1 ++ ": " ++ e.2 ++ "\n")) := rfl
  rw [hrender]
  simp only [String.toList_join, List.flatMap_map, hsection]

/-- Written sections read as they were written. -/
theorem ofText?_render {sections : List Section} (h : ∀ s ∈ sections, Section.Legible s)
    (hne : sections ≠ []) :
    ofText? (render sections) = some (.mapping (sections.map Section.node)) := by
  have hwritten : ∀ c ∈ (render sections).toList, IsWritten c := by
    intro c hc
    rw [toList_render, List.mem_flatMap] at hc
    obtain ⟨s, hs, hc⟩ := hc
    exact (h s hs).isWritten c hc
  rw [ofText?, characters?_of_isWritten hwritten, toList_render]
  simp only [Option.bind_eq_bind, Option.bind_some, tokens?_sections h hne,
    document?_sections sections]

/-! ### Values -/

theorem isWordChar_of_isDigit {c : Char} (h : c.isDigit = true) : isWordChar c = true := by
  simp [isWordChar, Char.isAlphanum, h]

theorem isDigit_ne {c d : Char} (hc : c.isDigit = true) (hd : d.isDigit = false) : c ≠ d := by
  rintro rfl
  rw [hc] at hd
  cases hd

theorem isDigit_toDigits {n : Nat} : ∀ c ∈ Nat.toDigits 10 n, c.isDigit = true :=
  fun _ hc => Nat.isDigit_of_mem_toDigits (by decide) (by decide) hc

theorem not_mem_toDigits {c : Char} {n : Nat} (hc : c.isDigit = false) :
    c ∉ Nat.toDigits 10 n := fun hmem => isDigit_ne (isDigit_toDigits c hmem) hc rfl

theorem isScalar_toDigits (n : Nat) : IsScalar (Nat.toDigits 10 n) where
  word c hc := isWordChar_of_isDigit (isDigit_toDigits c hc)
  ne_nil := Nat.toDigits_ne_nil
  ne_dash h := not_mem_toDigits (by decide) (h ▸ List.mem_singleton_self '-')

theorem natural?_digits {cs : List Char} (h : ∀ c ∈ cs, c.isDigit = true) (hne : cs ≠ []) :
    natural? 10 cs = some (Nat.ofDigitChars 10 cs 0) := by
  have hdigit : ∀ c ∈ cs, digit? 10 c = some (c.toNat - '0'.toNat) := by
    intro c hc
    have hrange := Char.isDigit_iff_toNat.1 (h c hc)
    have hlt : c.toNat - '0'.toNat < 10 := by
      simp at hrange ⊢
      omega
    rw [digit?, hexDigit?, if_pos (h c hc), Option.filter_some, if_pos (by simpa using hlt)]
  have hmap : cs.mapM (digit? 10) = some (cs.map fun c => c.toNat - '0'.toNat) := by
    clear h hne
    induction cs with
    | nil => rfl
    | cons c cs ih =>
      rw [List.mapM_cons, hdigit c List.mem_cons_self,
        ih fun d hd => hdigit d (List.mem_cons_of_mem c hd)]
      rfl
  rw [natural?, if_neg (by simpa using hne), hmap, Option.map_some, List.foldl_map,
    Nat.ofDigitChars_eq_foldl]
  simp only [Nat.mul_comm]

theorem head?_toDigits_ne_zero {n : Nat} (h : n ≠ 0) : (Nat.toDigits 10 n).head? ≠ some '0' := by
  induction n using Nat.strongRecOn with
  | ind n ih =>
    by_cases hn : n < 10
    · simp [Nat.toDigits_of_lt_base hn, h]
    · rw [Nat.toDigits_of_base_le (by decide) (by omega), List.head?_append,
        Option.or_of_isSome (by simp)]
      exact ih (n / 10) (by omega) (by omega)

theorem count?_toDigits (n : Nat) : count? (Nat.toDigits 10 n) = some n := by
  have hzero : hasLeadingZero (Nat.toDigits 10 n) = false := by
    by_cases hn : n = 0
    · simp [hn, hasLeadingZero]
    · simp [hasLeadingZero, head?_toDigits_ne_zero hn]
  have hvalue := natural?_digits (isDigit_toDigits (n := n)) Nat.toDigits_ne_nil
  rw [Nat.ofDigitChars_ten_toDigits] at hvalue
  have hne (d : Char) (hd : d.isDigit = false) : d ∉ Nat.toDigits 10 n := not_mem_toDigits hd
  rw [count?, hzero, if_neg Bool.false_ne_true, hvalue]
  · exact fun rest h => hne '+' (by decide) (by simp [h])
  · exact fun digits h => hne 'x' (by decide) (by simp [h])
  · exact fun digits h => hne 'o' (by decide) (by simp [h])
  · exact fun digits h => hne 'b' (by decide) (by simp [h])

theorem entries?_mapping {α : Type} (name : α → String) (value : α → Node) (entries : List α) :
    (Node.mapping (entries.map fun e => (.plain (name e), value e))).entries? =
      some (entries.map fun e => (name e, value e)) := by
  rw [Node.entries?]
  induction entries with
  | nil => rfl
  | cons e entries ih =>
    rw [List.map_cons, List.mapM_cons, ih]
    rfl

/-! ### Laws -/

/-- Numbers that are written as words and read back as they were. -/
class LawfulNumeral (R : Type) [Numeral R] : Prop where
  legible : ∀ x : R, IsScalar (Numeral.document x).toList
  ofScalar?_document : ∀ x : R, Numeral.ofScalar? (Numeral.document x).toList = some x

variable {R : Type} [Numeral R] [LawfulNumeral R]

theorem isScalar_scalarText (d : Datum R) : IsScalar (scalarText d).toList := by
  cases d with
  | count n => simpa [scalarText] using isScalar_toDigits n
  | number x => exact LawfulNumeral.legible x
  | flag b =>
    have hwords : IsScalar "true".toList ∧ IsScalar "false".toList := by decide
    cases b with
    | false => exact hwords.2
    | true => exact hwords.1

theorem isKey_of_isName {key : String} (h : Codec.isName key = true) : IsKey key.toList := by
  simp only [Codec.isName, Bool.and_eq_true, List.all_eq_true, decide_eq_true_eq] at h
  obtain ⟨⟨hhead, hword⟩, hshort⟩ := h
  refine ⟨?_, hhead, hshort⟩
  intro c hc
  rcases Bool.or_eq_true_iff.1 (hword c hc) with halpha | hunderscore
  · simp [isWordChar, Char.isAlphanum, halpha]
  · rw [of_decide_eq_true hunderscore]
    decide

theorem codec_scalarsReadBack [Arith R] : (codec : Codec R).ScalarsReadBack where
  count width n hn := by
    change (Node.plain (toString n)).count? width.greatest = some n
    rw [Node.count?, Node.plain?, Option.bind_some, Nat.toString_eq_repr, Nat.toList_repr,
      count?_toDigits, Option.filter_some, if_pos (decide_eq_true hn)]
  number x _ := LawfulNumeral.ofScalar?_document x
  flag b := by cases b <;> rfl

theorem codec_mappingsReadBack : (codec : Codec R).MappingsReadBack := by
  intro sections hne hnames
  have hlegible : ∀ s ∈ scalarTexts sections, Section.Legible s := by
    intro s hs
    obtain ⟨⟨name, entries⟩, hmem, rfl⟩ := List.mem_map.1 hs
    obtain ⟨hname, hentries, hkeys⟩ := hnames _ hmem
    refine ⟨isKey_of_isName hname, ?_, by simpa using hentries⟩
    intro e he
    obtain ⟨⟨key, d⟩, hd, rfl⟩ := List.mem_map.1 he
    exact ⟨isKey_of_isName (hkeys _ hd), isScalar_scalarText d⟩
  let value (s : String × List (String × Datum R)) : Node :=
    .mapping (s.2.map fun e => (.plain e.1, .plain (scalarText e.2)))
  have htext : ofText? (render (scalarTexts sections)) =
      some (.mapping (sections.map fun s => (.plain s.1, value s))) := by
    rw [ofText?_render hlegible (by simpa [scalarTexts] using hne)]
    simp [scalarTexts, Section.node, Entry.node, value, Function.comp_def]
  have hentries := entries?_mapping Prod.fst value sections
  refine ⟨_, _, _, rfl, htext, hentries, ?_⟩
  rw [List.map_map]
  apply List.map_congr_left
  intro s _
  exact congrArg (Prod.mk s.1) (entries?_mapping Prod.fst _ s.2)

end ScanMatch.Yaml
