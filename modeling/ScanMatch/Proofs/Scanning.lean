import ScanMatch.Yaml.Token

/-!
# Scanning of block mappings

Sections with entries below them are scanned line by line. A line starts where the one before it
left the scanner, so what a line emits can be said without the lines around it.
-/
namespace ScanMatch.Yaml

/-- A character that ends no plain scalar and has no meaning of its own in one. -/
def isWordChar (c : Char) : Bool := c.isAlphanum || ['_', '.', '+', '-'].contains c

theorem ne_of_isWordChar {c d : Char} (hc : isWordChar c = true) (hd : isWordChar d = false) :
    c ≠ d := by
  rintro rfl
  rw [hc] at hd
  cases hd

/-- A character at which a token starts. -/
structure Solid (c : Char) : Prop where
  ne_break : c ≠ '\n'
  ne_space : c ≠ ' '
  ne_tab : c ≠ '\t'
  ne_mark : c ≠ '\uFEFF'
  ne_hash : c ≠ '#'

theorem solid_of_isWordChar {c : Char} (h : isWordChar c = true) : Solid c := by
  have hne (d : Char) (hd : isWordChar d = false) : c ≠ d := ne_of_isWordChar h hd
  exact ⟨hne _ (by decide), hne _ (by decide), hne _ (by decide), hne _ (by decide),
    hne _ (by decide)⟩

theorem solid_colon : Solid ':' := by constructor <;> decide

theorem Solid.not_blank {c : Char} (h : Solid c) : isBlank c = false := by
  simp [isBlank, h.ne_space, h.ne_tab]

theorem not_isIndicator_of_isWordChar {c : Char} (h : isWordChar c = true) :
    isIndicator c = false := by
  rw [Bool.eq_false_iff]
  intro hindicator
  simp only [isIndicator, isFlowIndicator, Bool.or_eq_true, List.contains_iff_mem] at hindicator
  have hmem : c ∈ [',', '[', ']', '{', '}'] ++
      ['#', '&', '*', '!', '|', '>', '\x27', '"', '%', '@', '\x60'] :=
    List.mem_append.2 hindicator
  have hall : ([',', '[', ']', '{', '}'] ++ ['#', '&', '*', '!', '|', '>', '\x27', '"', '%', '@',
      '\x60']).all (!isWordChar ·) = true := by decide
  have hc := List.all_eq_true.1 hall c hmem
  rw [h] at hc
  cases hc

/-! ### Plain scalars -/

theorem plainFrom_word {least line : Nat} {rest : List Char} (cs : List Char)
    (h : ∀ c ∈ cs, isWordChar c = true) : ∀ (taken : List Char) (column : Nat),
    plainFrom false least taken .empty line column (cs ++ rest) =
      plainFrom false least (cs.reverse ++ taken) .empty line (column + cs.length) rest := by
  induction cs with
  | nil => exact fun _ _ => rfl
  | cons c cs ih =>
    intro taken column
    have hword := h c List.mem_cons_self
    have hc := solid_of_isWordChar hword
    have hcolon : c ≠ ':' := ne_of_isWordChar hword (by decide)
    rw [List.cons_append, plainFrom, if_neg hc.ne_break, if_neg (by simp [hc.not_blank]),
      if_neg (by simp [endsPlain, hcolon]), if_neg (by simp),
      ih fun c' hc' => h c' (List.mem_cons_of_mem c hc')]
    simp [Gap.text, Gap.empty, Nat.add_assoc, Nat.add_comm 1]

/-- A key ends at its colon. -/
theorem plain_key {least line column : Nat} {cs rest : List Char} {d : Char}
    (h : ∀ c ∈ cs, isWordChar c = true) (hd : endsToken (d :: rest) = true) :
    plain false least ⟨line, column, cs ++ ':' :: d :: rest⟩ =
      some (String.ofList cs, false, ⟨line, column + cs.length, ':' :: d :: rest⟩) := by
  rw [plain, plainFrom_word cs h, plainFrom, if_neg (by decide), if_neg (by decide),
    if_pos (by simp [endsPlain, hd])]
  simp [Gap.isBroken, Gap.empty]

/-- The lines that may come after a value: none, or one that is indented so far at most. -/
inductive Dedents (most : Nat) : List Char → Prop where
  | nothing : Dedents most []
  | line {indent : Nat} {c : Char} {cs : List Char} (hindent : indent ≤ most) (hc : Solid c) :
    Dedents most (List.replicate indent ' ' ++ c :: cs)

theorem plainFrom_indent {least line : Nat} {taken rest : List Char} (indent : Nat) :
    ∀ column : Nat,
      plainFrom false least taken (.folded 0) line column (List.replicate indent ' ' ++ rest) =
        plainFrom false least taken (.folded 0) line (column + indent) rest := by
  induction indent with
  | zero => exact fun _ => rfl
  | succ indent ih =>
    intro column
    rw [List.replicate_succ, List.cons_append, plainFrom, if_neg (by decide), if_pos (by decide),
      if_neg (by simp), Gap.blank, ih, Nat.add_assoc, Nat.add_comm 1]
    exact fun cs h => by cases h

theorem gap_indent {line : Nat} {rest : List Char} (indent : Nat) :
    ∀ column : Nat,
      Scanner.gap false false true line column (List.replicate indent ' ' ++ rest) =
        Scanner.gap false false true line (column + indent) rest := by
  induction indent with
  | zero => exact fun _ => rfl
  | succ indent ih =>
    intro column
    rw [List.replicate_succ, List.cons_append, Scanner.gap, if_neg (by decide),
      if_neg (by decide), if_pos (by simp), ih, Nat.add_assoc, Nat.add_comm 1]

/-- A value ends with its line. The place after it is in the next line, and only blanks of that
line come before it. -/
theorem plain_value {most : Nat} (line column : Nat) {cs text : List Char}
    (h : ∀ c ∈ cs, isWordChar c = true) (htext : Dedents most text) :
    ∃ cursor : Cursor,
      plain false (most + 1) ⟨line, column, cs ++ '\n' :: text⟩ =
        some (String.ofList cs, true, cursor) ∧
      Scanner.gap false false true cursor.line cursor.column cursor.rest =
        Scanner.gap false false true (line + 1) 0 text := by
  have hplain : plain false (most + 1) ⟨line, column, cs ++ '\n' :: text⟩ =
      plainFrom false (most + 1) cs.reverse (.folded 0) (line + 1) 0 text := by
    rw [plain, plainFrom_word cs h, plainFrom, if_pos rfl, List.append_nil, Gap.empty,
      Gap.lineBreak]
  cases htext with
  | nothing => exact ⟨⟨line + 1, 0, []⟩, by simp [hplain, plainFrom, Gap.isBroken], rfl⟩
  | @line indent c cs hindent hc =>
    refine ⟨⟨line + 1, indent, c :: cs⟩, ?_, ?_⟩
    · rw [hplain, plainFrom_indent, plainFrom, if_neg hc.ne_break, if_neg (by simp [hc.not_blank]),
        if_pos]
      · simp [Gap.isBroken]
      · have hne : (Gap.folded 0 != Gap.empty) = true := by decide
        simp [endsPlain, hne, Nat.lt_succ_of_le hindent]
    · rw [gap_indent, Nat.zero_add]

namespace Scanner

/-! ### Steps of the scanner -/

/-- A state in block style where no key has started. -/
def idle (cursor : Cursor) (tokens : List Token) (columns : List Nat) (keyAllowed : Bool) :
    Scanner :=
  ⟨cursor, tokens, tokens.length, columns, none, [], keyAllowed⟩

/-- The state at the start of a line. -/
def lineStart (line : Nat) (text : List Char) (tokens : List Token) (columns : List Nat) :
    Scanner :=
  idle ⟨line, 0, text⟩ tokens columns true

theorem run_congr {s t : Scanner} (h : s.approach = t.approach) (fuel : Nat) :
    s.run fuel = t.run fuel := by
  cases fuel with
  | zero => rfl
  | succ fuel => rw [run, run, h]

theorem approach_solid {s : Scanner} {c : Char} {cs : List Char} (hc : Solid c)
    (hrest : s.cursor.rest = c :: cs) (hflow : s.inFlow = false) : s.approach = s := by
  obtain ⟨⟨line, column, rest⟩, tokens, count, columns, keyStart, outer, keyAllowed⟩ := s
  subst hrest
  simp [approach, gap, hflow, hc.ne_break, hc.ne_hash, hc.ne_space, hc.ne_tab, hc.ne_mark]

/-- At a character that starts a word there is a scalar, unless a mark or an item starts there. -/
theorem token_word {s : Scanner} {c : Char} {cs : List Char} (hc : isWordChar c = true)
    (hmarker : isMarker s.cursor.column (c :: cs) = false)
    (hdash : (c = '-' && endsToken cs) = false) : s.token c cs = s.plainScalar := by
  have hne (d : Char) (hd : isWordChar d = false) : c ≠ d := ne_of_isWordChar hc hd
  rw [token, if_neg (by simp [hmarker]), if_neg (hne _ (by decide)), if_neg (hne _ (by decide)),
    if_neg (hne _ (by decide)), if_neg (hne _ (by decide)), if_neg (hne _ (by decide)),
    if_neg (by simpa using hdash), if_neg, if_neg, if_neg (hne _ (by decide)),
    if_neg (hne _ (by decide)), if_neg]
  · simp [(solid_of_isWordChar hc).not_blank, not_isIndicator_of_isWordChar hc]
  · simp [hne ':' (by decide)]
  · simp [hne '?' (by decide)]

theorem close_idle {cursor : Cursor} {tokens : List Token} {columns : List Nat}
    {keyAllowed : Bool} (hcolumns : ∀ c ∈ columns.head?, c ≤ cursor.column) :
    (idle cursor tokens columns keyAllowed).close (decide <| cursor.column < ·) =
      idle cursor tokens columns keyAllowed := by
  cases columns with
  | nil => rfl
  | cons c columns =>
    have hc := hcolumns c rfl
    simp [close, idle, inFlow, hc]

theorem run_step {fuel : Nat} {s : Scanner} {c : Char} {cs : List Char}
    (happroach : s.approach = s) (hpast : s.dropPast = some s)
    (hclose : s.close (decide <| s.cursor.column < ·) = s) (hrest : s.cursor.rest = c :: cs) :
    s.run (fuel + 1) = (s.token c cs).bind (run fuel) := by
  rw [run, happroach]
  simp only [hpast, Option.bind_eq_bind, Option.bind_some]
  rw [hclose, hrest]

/-- One step at a character where a token starts, if no collection ends there. -/
theorem run_idle {fuel : Nat} {cursor : Cursor} {tokens : List Token} {columns : List Nat}
    {keyAllowed : Bool} {c : Char} {cs : List Char} (hc : Solid c) (hrest : cursor.rest = c :: cs)
    (hcolumns : ∀ d ∈ columns.head?, d ≤ cursor.column) :
    (idle cursor tokens columns keyAllowed).run (fuel + 1) =
      ((idle cursor tokens columns keyAllowed).token c cs).bind (run fuel) :=
  run_step (approach_solid hc hrest rfl) rfl (close_idle hcolumns) hrest

/-- A column to the right of the cursor is given up. -/
theorem close_cons {cursor : Cursor} {tokens : List Token} {column : Nat} {columns : List Nat}
    {keyAllowed : Bool} (hcolumn : cursor.column < column) :
    (idle cursor tokens (column :: columns) keyAllowed).close (decide <| cursor.column < ·) =
      (idle cursor (.blockEnd :: tokens) columns keyAllowed).close
        (decide <| cursor.column < ·) := by
  simp [close, idle, inFlow, hcolumn, emit]

end Scanner

/-! ### Keys and values -/

/-- What may be written as a key. -/
structure IsKey (cs : List Char) : Prop where
  word : ∀ c ∈ cs, isWordChar c = true
  head : cs.head?.any Char.isAlpha = true
  short : cs.length ≤ 1024

instance (cs : List Char) : Decidable (IsKey cs) :=
  decidable_of_iff (cs.all isWordChar = true ∧ cs.head?.any Char.isAlpha = true ∧
    cs.length ≤ 1024)
    ⟨fun h => ⟨List.all_eq_true.1 h.1, h.2.1, h.2.2⟩,
      fun h => ⟨List.all_eq_true.2 h.word, h.head, h.short⟩⟩

theorem IsKey.exists_cons {cs : List Char} (h : IsKey cs) :
    ∃ c rest, cs = c :: rest ∧ isWordChar c = true ∧ c ≠ '-' ∧ c ≠ '.' := by
  cases cs with
  | nil => cases h.head
  | cons c rest =>
    have halpha : c.isAlpha = true := h.head
    refine ⟨c, rest, rfl, h.word c List.mem_cons_self, ?_, ?_⟩ <;> rintro rfl <;> cases halpha

/-- What may be written as a value. -/
structure IsScalar (cs : List Char) : Prop where
  word : ∀ c ∈ cs, isWordChar c = true
  ne_nil : cs ≠ []
  /-- A dash alone is the mark of an item. -/
  ne_dash : cs ≠ ['-']

instance (cs : List Char) : Decidable (IsScalar cs) :=
  decidable_of_iff (cs.all isWordChar = true ∧ cs ≠ [] ∧ cs ≠ ['-'])
    ⟨fun h => ⟨List.all_eq_true.1 h.1, h.2.1, h.2.2⟩,
      fun h => ⟨List.all_eq_true.2 h.word, h.ne_nil, h.ne_dash⟩⟩

namespace Scanner

/-- The state after a key and its colon. The first key of a mapping opens it. -/
def afterColon (cursor : Cursor) (column : Nat) (name : Token) (tokens : List Token)
    (columns : List Nat) : Scanner :=
  if columns.head? = some column then idle cursor (.value :: name :: .key :: tokens) columns false
  else idle cursor (.value :: name :: .key :: .blockMapping :: tokens) (column :: columns) false

/-- The state between a key and its colon. -/
def beforeColon (line column length : Nat) (rest : List Char) (name : Token) (tokens : List Token)
    (columns : List Nat) : Scanner :=
  ⟨⟨line, column + length, rest⟩, name :: tokens, tokens.length + 1, columns,
    some ⟨line, column, decide (columns.head? = some column), tokens.length⟩, [], false⟩

section

variable {fuel line column : Nat} {cs rest : List Char} {d : Char} {name : Token}
  {tokens : List Token} {columns : List Nat}

theorem plainScalar_key (h : ∀ c ∈ cs, isWordChar c = true)
    (hd : endsToken (d :: rest) = true) :
    (idle ⟨line, column, cs ++ ':' :: d :: rest⟩ tokens columns true).plainScalar =
      some (beforeColon line column cs.length (':' :: d :: rest) (.plain (String.ofList cs)) tokens
        columns) := by
  have hsave : (idle ⟨line, column, cs ++ ':' :: d :: rest⟩ tokens columns true).saveKey =
      some ⟨⟨line, column, cs ++ ':' :: d :: rest⟩, tokens, tokens.length, columns,
        some ⟨line, column, decide (columns.head? = some column), tokens.length⟩, [], true⟩ := rfl
  rw [plainScalar, hsave]
  simp only [Option.bind_eq_bind, Option.bind_some, inFlow, List.isEmpty_nil, Bool.not_true]
  rw [plain_key h hd]
  rfl

/-- The colon puts the mark of the key before it, and the start of a mapping before that. -/
theorem colon_key {length : Nat} (hcolumns : ∀ c ∈ columns.head?, c ≤ column) :
    (beforeColon line column length (':' :: rest) name tokens columns).colon =
      some (afterColon ⟨line, column + length + 1, rest⟩ column name tokens columns) := by
  have henter : columns.head?.any (decide <| column ≤ ·) =
      decide (columns.head? = some column) := by
    cases columns with
    | nil => rfl
    | cons c columns =>
      have hc := hcolumns c rfl
      simp [Nat.le_antisymm_iff, hc]
  have hcount : tokens.length + 1 + 1 - tokens.length = 2 := by omega
  by_cases hhead : columns.head? = some column
  · simp [beforeColon, afterColon, colon, emitAt, enter, hhead, emit, skip, idle]
  · simp [beforeColon, afterColon, colon, emitAt, enter, henter, hhead, emit, skip, idle, inFlow,
      hcount]

theorem run_colon {length : Nat} (hlength : length ≤ 1024) (hd : endsToken (d :: rest) = true)
    (hcolumns : ∀ c ∈ columns.head?, c ≤ column) :
    (beforeColon line column length (':' :: d :: rest) name tokens columns).run (fuel + 1) =
      (afterColon ⟨line, column + length + 1, d :: rest⟩ column name tokens columns).run fuel := by
  have hmarker : isMarker (column + length) (':' :: d :: rest) = false := by
    simp [isMarker, isTriple]
  have htoken : (beforeColon line column length (':' :: d :: rest) name tokens columns).token ':'
      (d :: rest) =
        (beforeColon line column length (':' :: d :: rest) name tokens columns).colon := by
    simp [token, beforeColon, hmarker, hd]
  rw [run_step (approach_solid solid_colon rfl rfl) _ _ rfl]
  · rw [htoken, colon_key hcolumns, Option.bind_some]
  · simp [beforeColon, dropPast, live?, KeyStart.isPast, hlength]
  · cases columns with
    | nil => rfl
    | cons c columns =>
      have hc : c ≤ column + length := Nat.le_add_right_of_le (hcolumns c rfl)
      simp [beforeColon, close, inFlow, hc]

/-- A key and its colon, in two steps. -/
theorem run_key (h : IsKey cs) (hd : endsToken (d :: rest) = true)
    (hcolumns : ∀ c ∈ columns.head?, c ≤ column) :
    (idle ⟨line, column, cs ++ ':' :: d :: rest⟩ tokens columns true).run (fuel + 2) =
      (afterColon ⟨line, column + cs.length + 1, d :: rest⟩ column (.plain (String.ofList cs))
        tokens columns).run fuel := by
  obtain ⟨c, tail, hcs, hc, hdash, hdot⟩ := h.exists_cons
  have hrest : cs ++ ':' :: d :: rest = c :: (tail ++ ':' :: d :: rest) := by rw [hcs]; rfl
  have hmarker : isMarker column (c :: (tail ++ ':' :: d :: rest)) = false := by
    simp [isMarker, isTriple, Ne.symm hdash, Ne.symm hdot]
  rw [run_idle (solid_of_isWordChar hc) hrest hcolumns, token_word hc hmarker (by simp [hdash]),
    plainScalar_key h.word hd, Option.bind_some, run_colon h.short hd hcolumns]

/-- The value after a key and a blank, in one step. -/
theorem run_value {most : Nat} {text : List Char} (h : IsScalar cs) (htext : Dedents most text)
    (hcolumn : most ≤ column) :
    (idle ⟨line, column, ' ' :: (cs ++ '\n' :: text)⟩ tokens (most :: columns) false).run
        (fuel + 1) =
      (lineStart (line + 1) text (.plain (String.ofList cs) :: tokens) (most :: columns)).run
        fuel := by
  obtain ⟨c, tail, hcs⟩ := List.exists_cons_of_ne_nil h.ne_nil
  have hc : isWordChar c = true := h.word c (hcs ▸ List.mem_cons_self)
  have hrest : cs ++ '\n' :: text = c :: (tail ++ '\n' :: text) := by rw [hcs]; rfl
  have hblank : (idle ⟨line, column, ' ' :: (cs ++ '\n' :: text)⟩ tokens (most :: columns)
        false).approach =
      (idle ⟨line, column + 1, cs ++ '\n' :: text⟩ tokens (most :: columns)
        false).approach := by
    simp [idle, approach, inFlow, gap]
  have hdash : (c = '-' && endsToken (tail ++ '\n' :: text)) = false := by
    cases tail with
    | nil =>
      have hne : c ≠ '-' := fun hc => h.ne_dash (hc ▸ hcs)
      simp [hne]
    | cons d tail =>
      have hd := solid_of_isWordChar (h.word d (by simp [hcs]))
      simp [endsToken, hd.not_blank, hd.ne_break]
  obtain ⟨cursor, hplain, hgap⟩ := plain_value line (column + 1) h.word htext
  have hscalar : (idle ⟨line, column + 1, cs ++ '\n' :: text⟩ tokens (most :: columns)
        false).plainScalar =
      some (idle cursor (.plain (String.ofList cs) :: tokens) (most :: columns) true) := by
    rw [plainScalar, saveKey, if_neg (by simp [idle])]
    simp only [Option.bind_eq_bind, Option.bind_some, inFlow, idle, List.isEmpty_nil,
      Bool.not_true, List.head?_cons, Option.map_some, Option.getD_some, hplain]
    rfl
  rw [run_congr hblank, run_idle (solid_of_isWordChar hc) hrest
      (by simpa using Nat.le_succ_of_le hcolumn),
    token_word hc (by simp [isMarker, idle]) hdash, hscalar, Option.bind_some]
  refine run_congr ?_ fuel
  simp [approach, lineStart, idle, inFlow, hgap]

theorem approach_lineStart {indent : Nat} :
    (lineStart line (List.replicate indent ' ' ++ rest) tokens columns).approach =
      (idle ⟨line, indent, rest⟩ tokens columns true).approach := by
  simp [approach, lineStart, idle, inFlow, gap_indent]

/-- A key with more indentation opens a mapping. -/
theorem run_open (indent : Nat) (h : IsKey cs) (hd : endsToken (d :: rest) = true)
    (hcolumns : ∀ c ∈ columns.head?, c < indent) :
    (lineStart line (List.replicate indent ' ' ++ (cs ++ ':' :: d :: rest)) tokens columns).run
        (fuel + 2) =
      (lineStart line (List.replicate indent ' ' ++ (cs ++ ':' :: d :: rest))
        (.blockMapping :: tokens) (indent :: columns)).run (fuel + 2) := by
  have hhead : columns.head? ≠ some indent := fun h => Nat.lt_irrefl _ (hcolumns indent h)
  rw [run_congr approach_lineStart, run_congr approach_lineStart,
    run_key h hd fun c hc => Nat.le_of_lt (hcolumns c hc), run_key h hd (by simp), afterColon,
    afterColon, if_neg hhead, if_pos (List.head?_cons ..)]

/-- A line that is less indented than the one before ends a mapping. -/
theorem run_dedent {most : Nat} {text : List Char} (htext : Dedents most text)
    (hcolumn : most < column) (fuel : Nat) :
    (lineStart line text tokens (column :: columns)).run fuel =
      (lineStart line text (.blockEnd :: tokens) columns).run fuel := by
  obtain ⟨cursor, hcursor, happroach⟩ : ∃ cursor : Cursor, cursor.column ≤ most ∧
      ∀ tokens columns, (lineStart line text tokens columns).approach =
        idle cursor tokens columns true := by
    cases htext with
    | nothing => exact ⟨⟨line, 0, []⟩, Nat.zero_le most, fun _ _ => rfl⟩
    | @line indent c cs hindent hc =>
      refine ⟨⟨line, indent, c :: cs⟩, hindent, fun _ _ => ?_⟩
      rw [approach_lineStart, approach_solid hc rfl rfl]
  have hpast (tokens : List Token) (columns : List Nat) :
      (idle cursor tokens columns true).dropPast = some (idle cursor tokens columns true) := rfl
  cases fuel with
  | zero => rfl
  | succ fuel =>
    rw [run, run, happroach, happroach]
    simp only [hpast, Option.bind_eq_bind, Option.bind_some]
    rw [show (idle cursor tokens (column :: columns) true).cursor = cursor from rfl,
      show (idle cursor (.blockEnd :: tokens) columns true).cursor = cursor from rfl,
      close_cons (Nat.lt_of_le_of_lt hcursor hcolumn)]

end

end Scanner

/-! ### Sections -/

/-- A key and a value in a line of its own. -/
abbrev Entry := String × String

/-- A name and the entries below it. -/
abbrev Section := String × List Entry

namespace Entry

def line (e : Entry) : List Char :=
  List.replicate 2 ' ' ++ (e.1.toList ++ ':' :: ' ' :: (e.2.toList ++ ['\n']))

def tokens (e : Entry) : List Token := [.key, .plain e.1, .value, .plain e.2]

structure Legible (e : Entry) : Prop where
  key : IsKey e.1.toList
  value : IsScalar e.2.toList

theorem line_append (e : Entry) (text : List Char) :
    line e ++ text =
      List.replicate 2 ' ' ++ (e.1.toList ++ ':' :: ' ' :: (e.2.toList ++ '\n' :: text)) := by
  simp [line]

theorem length_line (e : Entry) :
    (line e).length = e.1.toList.length + e.2.toList.length + 5 := by
  simp [line]
  omega

end Entry

namespace Section

def lines (s : Section) : List Char := s.1.toList ++ ':' :: '\n' :: s.2.flatMap Entry.line

def tokens (s : Section) : List Token :=
  [.key, .plain s.1, .value, .blockMapping] ++ s.2.flatMap Entry.tokens ++ [.blockEnd]

structure Legible (s : Section) : Prop where
  key : IsKey s.1.toList
  entry : ∀ e ∈ s.2, Entry.Legible e
  ne_nil : s.2 ≠ []

theorem lines_append (s : Section) (text : List Char) :
    lines s ++ text = s.1.toList ++ ':' :: '\n' :: (s.2.flatMap Entry.line ++ text) := by
  simp [lines]

end Section

theorem Dedents.mono {least most : Nat} {text : List Char} (h : Dedents least text)
    (hle : least ≤ most) : Dedents most text := by
  cases h with
  | nothing => exact .nothing
  | line hindent hc => exact .line (Nat.le_trans hindent hle) hc

theorem dedents_entries {entries : List Entry} {tail : List Char}
    (h : ∀ e ∈ entries, Entry.Legible e) (htail : Dedents 2 tail) :
    Dedents 2 (entries.flatMap Entry.line ++ tail) := by
  cases entries with
  | nil => exact htail
  | cons e entries =>
    obtain ⟨c, rest, hcs, hc, -⟩ := (h e List.mem_cons_self).key.exists_cons
    rw [List.flatMap_cons, List.append_assoc, Entry.line_append, hcs]
    exact .line (Nat.le_refl 2) (solid_of_isWordChar hc)

theorem dedents_sections {sections : List Section} (h : ∀ s ∈ sections, Section.Legible s) :
    Dedents 0 (sections.flatMap Section.lines) := by
  cases sections with
  | nil => exact .nothing
  | cons s sections =>
    obtain ⟨c, rest, hcs, hc, -⟩ := (h s List.mem_cons_self).key.exists_cons
    rw [List.flatMap_cons, Section.lines_append, hcs]
    exact .line (Nat.le_refl 0) (solid_of_isWordChar hc)

namespace Scanner

/-- A line with an entry, where the entries of a section are open. -/
theorem run_entry {e : Entry} {text : List Char} (he : Entry.Legible e) (htext : Dedents 2 text)
    (fuel line : Nat) (tokens : List Token) :
    (lineStart line (Entry.line e ++ text) tokens [2, 0]).run (fuel + 3) =
      (lineStart (line + 1) text ((Entry.tokens e).reverse ++ tokens) [2, 0]).run fuel := by
  rw [Entry.line_append, run_congr approach_lineStart, show fuel + 3 = fuel + 1 + 2 from rfl,
    run_key he.key rfl (by simp), afterColon, if_pos (List.head?_cons ..),
    run_value he.value htext (by omega)]
  simp [Entry.tokens]

/-- The entries of a section after its mapping has been opened. The fuel that is left still
exceeds the text that is left. -/
theorem run_entries {entries : List Entry} {tail : List Char}
    (h : ∀ e ∈ entries, Entry.Legible e) (htail : Dedents 2 tail) :
    ∀ (fuel line : Nat) (tokens : List Token),
      (entries.flatMap Entry.line ++ tail).length < fuel →
      ∃ fuel' line', tail.length < fuel' ∧
        (lineStart line (entries.flatMap Entry.line ++ tail) tokens [2, 0]).run fuel =
          (lineStart line' tail ((entries.flatMap Entry.tokens).reverse ++ tokens) [2, 0]).run
            fuel' := by
  induction entries with
  | nil => exact fun fuel line tokens hfuel => ⟨fuel, line, hfuel, rfl⟩
  | cons e entries ih =>
    intro fuel line tokens hfuel
    have hentries : ∀ e ∈ entries, Entry.Legible e :=
      fun e' he => h e' (List.mem_cons_of_mem e he)
    rw [List.flatMap_cons, List.append_assoc] at hfuel ⊢
    rw [List.length_append, Entry.length_line] at hfuel
    obtain ⟨fuel, rfl⟩ : ∃ n, fuel = n + 3 := ⟨fuel - 3, by omega⟩
    obtain ⟨fuel', line', hlt, hrun⟩ := ih hentries fuel (line + 1)
      ((Entry.tokens e).reverse ++ tokens) (by omega)
    refine ⟨fuel', line', hlt, ?_⟩
    rw [run_entry (h e List.mem_cons_self) (dedents_entries hentries htail), hrun,
      List.flatMap_cons, List.reverse_append, List.append_assoc]

/-- A section, where sections are open: its name, its entries and the end of its mapping. -/
theorem run_section {s : Section} {tail : List Char} (h : Section.Legible s)
    (htail : Dedents 0 tail) (fuel line : Nat) (tokens : List Token)
    (hfuel : (Section.lines s ++ tail).length < fuel) :
    ∃ fuel' line', tail.length < fuel' ∧
      (lineStart line (Section.lines s ++ tail) tokens [0]).run fuel =
        (lineStart line' tail ((Section.tokens s).reverse ++ tokens) [0]).run fuel' := by
  obtain ⟨name, entries⟩ := s
  obtain ⟨e, others, rfl⟩ := List.exists_cons_of_ne_nil h.ne_nil
  rw [Section.lines_append] at hfuel ⊢
  simp only [List.flatMap_cons, List.length_append, List.length_cons, Entry.length_line] at hfuel
  obtain ⟨fuel, rfl⟩ : ∃ n, fuel = n + 2 + 2 := ⟨fuel - 4, by omega⟩
  have hheader (text : List Char) :
      (lineStart line (name.toList ++ ':' :: '\n' :: text) tokens [0]).run (fuel + 2 + 2) =
        (lineStart (line + 1) text (.value :: .plain name :: .key :: tokens) [0]).run
          (fuel + 2) := by
    rw [lineStart, run_key h.key rfl (by simp), afterColon, if_pos (List.head?_cons ..),
      String.ofList_toList]
    refine run_congr ?_ (fuel + 2)
    simp [approach, lineStart, idle, inFlow, gap]
  have hopen (text : List Char) (tokens : List Token) :
      (lineStart (line + 1) (Entry.line e ++ text) tokens [0]).run (fuel + 2) =
        (lineStart (line + 1) (Entry.line e ++ text) (.blockMapping :: tokens) [2, 0]).run
          (fuel + 2) := by
    rw [Entry.line_append]
    exact run_open 2 (h.entry e List.mem_cons_self).key rfl (by simp)
  obtain ⟨fuel', line', hlt, hentries⟩ := run_entries h.entry (htail.mono (Nat.zero_le 2))
    (fuel + 2) (line + 1) (.blockMapping :: .value :: .plain name :: .key :: tokens) (by
      simp only [List.flatMap_cons, List.length_append, Entry.length_line]
      omega)
  refine ⟨fuel', line', hlt, ?_⟩
  rw [List.flatMap_cons, List.append_assoc] at hentries ⊢
  rw [hheader, hopen, hentries, run_dedent htail Nat.zero_lt_two]
  simp [Section.tokens]

/-- Written sections, after the mapping that holds them has been opened. -/
theorem run_sections {sections : List Section} (h : ∀ s ∈ sections, Section.Legible s) :
    ∀ (fuel line : Nat) (tokens : List Token),
      (sections.flatMap Section.lines).length < fuel →
      (lineStart line (sections.flatMap Section.lines) tokens [0]).run fuel =
        some (tokens.reverse ++ sections.flatMap Section.tokens ++ [.blockEnd]) := by
  induction sections with
  | nil =>
    intro fuel line tokens hfuel
    obtain ⟨fuel, rfl⟩ := Nat.exists_eq_add_one_of_ne_zero (Nat.ne_of_gt hfuel)
    simp [run, approach, gap, lineStart, idle, inFlow, dropPast, live?, close, finish, dropKey,
      emit]
  | cons s sections ih =>
    intro fuel line tokens hfuel
    have hsections : ∀ s ∈ sections, Section.Legible s :=
      fun s' hs => h s' (List.mem_cons_of_mem s hs)
    obtain ⟨fuel', line', hlt, hrun⟩ := run_section (h s List.mem_cons_self)
      (dedents_sections hsections) fuel line tokens hfuel
    rw [List.flatMap_cons, hrun, ih hsections fuel' line' _ hlt]
    simp

end Scanner

/-- The tokens of written sections. -/
theorem tokens?_sections {sections : List Section} (h : ∀ s ∈ sections, Section.Legible s)
    (hne : sections ≠ []) :
    tokens? (sections.flatMap Section.lines) =
      some (.blockMapping :: (sections.flatMap Section.tokens ++ [.blockEnd])) := by
  obtain ⟨s, others, rfl⟩ := List.exists_cons_of_ne_nil hne
  obtain ⟨fuel, hfuel⟩ : ∃ n, ((s :: others).flatMap Section.lines).length + 1 = n + 2 := by
    refine ⟨((s :: others).flatMap Section.lines).length - 1, ?_⟩
    simp only [List.flatMap_cons, Section.lines, List.length_append, List.length_cons]
    omega
  have hopen : (Scanner.lineStart 0 ((s :: others).flatMap Section.lines) [] []).run (fuel + 2) =
      (Scanner.lineStart 0 ((s :: others).flatMap Section.lines) [.blockMapping] [0]).run
        (fuel + 2) := by
    rw [List.flatMap_cons, Section.lines_append]
    exact Scanner.run_open 0 (h s List.mem_cons_self).key rfl (by simp)
  have hstart : Scanner.ofText ((s :: others).flatMap Section.lines) =
      Scanner.lineStart 0 ((s :: others).flatMap Section.lines) [] [] := rfl
  rw [tokens?, hfuel, hstart, hopen, Scanner.run_sections h (fuel + 2) 0 _ (by omega)]
  rfl

end ScanMatch.Yaml
