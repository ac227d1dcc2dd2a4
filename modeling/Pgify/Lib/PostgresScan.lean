import Mathlib.Data.List.Infix

/-! # White space, comments and quotes as PostgreSQL scans them

The scanner reads a statement one character at a time, with the next one in sight. It sorts every
character into white space, comment, literal, quoted identifier or code: `--` runs to the end of the
line, `/*` nests, an E in front of a quote makes backslashes escape, and otherwise
`standard_conforming_strings` is on. What a stretch of text is read as depends on the text in front
of it through the scanner's mode alone.
-/

namespace PostgresScan

/-- What a character is read as. -/
inductive Kind where
  | code | space | comment | literal | identifier
deriving DecidableEq, Repr

/-- Where the scanner stands. A `Pair` mode is at the second character of a pair. -/
inductive Mode where
  | outside (inWord : Bool)
  | dollarTag (tag : List Char)
  | dollarQuoted (tag : List Char) (matched : Option (List Char))
  | lineComment
  | blockComment (outer : ℕ)
  | blockPair (behind : Option ℕ)
  | literal (escapes : Bool)
  | literalPair (escapes : Bool)
  | escapeOpener
  | quoted
  | quotedPair
deriving DecidableEq, Repr

/-- At the start of a statement. -/
def Mode.start : Mode := .outside false

/-- No literal, quoted identifier or comment is open. A dollar sign with a tag behind it opens a
literal only at its second dollar sign. -/
def Mode.isOutside : Mode → Bool
  | .outside _ | .dollarTag _ => true
  | _ => false

def isSpace (c : Char) : Bool :=
  c = ' ' || c = '\t' || c = '\n' || c = '\r' || c = '\x0c'

/-- A character that starts an identifier. -/
def identStart (c : Char) : Bool :=
  c.isAlpha || c = '_' || 128 ≤ c.toNat

def identCont (c : Char) : Bool :=
  identStart c || c.isDigit || c = '$'

/-- A character outside literals, quoted identifiers and comments. -/
def stepOutside (inWord : Bool) (c : Char) (next : Option Char) : Kind × Mode :=
  if isSpace c then (.space, .outside false)
  else if c = '-' ∧ next = some '-' then (.comment, .lineComment)
  else if c = '/' ∧ next = some '*' then (.comment, .blockPair (some 0))
  else if c = '\'' then (.literal, .literal false)
  else if c = '"' then (.identifier, .quoted)
  else if inWord then (.code, .outside (identCont c))
  else if (c = 'E' ∨ c = 'e') ∧ next = some '\'' then (.literal, .escapeOpener)
  else if c = '$' then (.code, .dollarTag [])
  else (.code, .outside (identStart c))

def step : Mode → Char → Option Char → Kind × Mode
  | .outside inWord, c, next => stepOutside inWord c next
  | .dollarTag tag, c, next =>
    if c = '$' then (.literal, .dollarQuoted tag none)
    else if identStart c || (c.isDigit && tag ≠ []) then (.code, .dollarTag (tag ++ [c]))
    else stepOutside false c next
  | .dollarQuoted tag matched, c, _ =>
    if c = '$' then
      (.literal, if matched = some tag then .outside false else .dollarQuoted tag (some []))
    else (.literal, .dollarQuoted tag (matched.map (· ++ [c])))
  | .lineComment, c, _ =>
    if c = '\n' ∨ c = '\r' then (.space, .outside false) else (.comment, .lineComment)
  | .blockComment outer, c, next =>
    if c = '/' ∧ next = some '*' then (.comment, .blockPair (some (outer + 1)))
    else if c = '*' ∧ next = some '/' then
      (.comment, .blockPair (if outer = 0 then none else some (outer - 1)))
    else (.comment, .blockComment outer)
  | .blockPair behind, _, _ => (.comment, behind.elim (.outside false) .blockComment)
  | .literal escapes, c, next =>
    if c = '\'' then (.literal, if next = some '\'' then .literalPair escapes else .outside false)
    else if c = '\\' ∧ escapes then (.literal, .literalPair escapes)
    else (.literal, .literal escapes)
  | .literalPair escapes, _, _ => (.literal, .literal escapes)
  | .escapeOpener, _, _ => (.literal, .literal true)
  | .quoted, c, next =>
    if c = '"' then (.identifier, if next = some '"' then .quotedPair else .outside false)
    else (.identifier, .quoted)
  | .quotedPair, _, _ => (.identifier, .quoted)

/-- The first character of a text, or else of what stands behind it. -/
def upcoming (text : List Char) (next : Option Char) : Option Char :=
  text.head?.or next

/-- The mode behind a text, when `next` is the character behind the text. -/
def scan (mode : Mode) : List Char → Option Char → Mode
  | [], _ => mode
  | c :: rest, next => scan (step mode c (upcoming rest next)).2 rest next

/-- What the characters of a text are read as. -/
def kinds (mode : Mode) : List Char → Option Char → List Kind
  | [], _ => []
  | c :: rest, next =>
    (step mode c (upcoming rest next)).1 :: kinds (step mode c (upcoming rest next)).2 rest next

/-- The mode at the end of a text that another text follows. -/
def modeAt (before after : List Char) : Mode :=
  scan .start before after.head?

/-- At its place the text is white space and complete comments: it starts and ends outside, and
nothing in it is anything else. -/
def ReadAsLayout (before text after : List Char) : Prop :=
  (modeAt before (text ++ after)).isOutside = true ∧
    (∀ kind ∈ kinds (modeAt before (text ++ after)) text after.head?,
      kind = .space ∨ kind = .comment) ∧
    (modeAt (before ++ text) after).isOutside = true

instance (before text after : List Char) : Decidable (ReadAsLayout before text after) :=
  inferInstanceAs (Decidable (_ ∧ _))

/-- At its place the text stands inside a standard string literal. -/
def ReadInLiteral (before text after : List Char) : Prop :=
  modeAt before (text ++ after) = .literal false ∧
    (∀ kind ∈ kinds (modeAt before (text ++ after)) text after.head?, kind = .literal) ∧
    modeAt (before ++ text) after = .literal false

instance (before text after : List Char) : Decidable (ReadInLiteral before text after) :=
  inferInstanceAs (Decidable (_ ∧ _))

example : ReadAsLayout "SELECT E'\\'' ".toList "/* ' */".toList ", 1".toList := by decide

@[simp] theorem upcoming_nil (next : Option Char) : upcoming [] next = next := rfl

@[simp] theorem upcoming_cons (c : Char) (rest : List Char) (next : Option Char) :
    upcoming (c :: rest) next = some c := rfl

theorem upcoming_append (first second : List Char) (next : Option Char) :
    upcoming (first ++ second) next = upcoming first (upcoming second next) := by
  cases first <;> rfl

theorem upcoming_head? (text after : List Char) :
    upcoming text after.head? = (text ++ after).head? := by
  cases text <;> rfl

theorem scan_append (mode : Mode) (first second : List Char) (next : Option Char) :
    scan mode (first ++ second) next =
      scan (scan mode first (upcoming second next)) second next := by
  induction first generalizing mode with
  | nil => rfl
  | cons c first ih => rw [List.cons_append, scan, scan, ih, upcoming_append]

theorem kinds_append (mode : Mode) (first second : List Char) (next : Option Char) :
    kinds mode (first ++ second) next =
      kinds mode first (upcoming second next) ++
        kinds (scan mode first (upcoming second next)) second next := by
  induction first generalizing mode with
  | nil => rfl
  | cons c first ih => rw [List.cons_append, kinds, kinds, scan, ih, upcoming_append]; rfl

/-- Behind a further text the scanner goes on from the mode in front of it. -/
theorem modeAt_append (before text after : List Char) :
    modeAt (before ++ text) after = scan (modeAt before (text ++ after)) text after.head? := by
  rw [modeAt, scan_append, upcoming_head?, modeAt]

/-! ## Steps from outside -/

/-- A character that ends a word and a dollar tag is read the same from every mode outside. -/
theorem step_of_isOutside {mode : Mode} {c : Char} {next : Option Char}
    (outside : mode.isOutside = true) (apart : identCont c = false) :
    ∃ inWord, step mode c next = stepOutside inWord c next := by
  cases mode with
  | outside inWord => exact ⟨inWord, rfl⟩
  | dollarTag tag =>
    simp only [identCont, Bool.or_eq_false_iff, decide_eq_false_iff_not] at apart
    obtain ⟨⟨starts, digit⟩, dollar⟩ := apart
    exact ⟨false, by simp [step, starts, digit, dollar]⟩
  | _ => cases outside

theorem step_space {mode : Mode} {c : Char} {next : Option Char}
    (outside : mode.isOutside = true) (space : isSpace c = true) :
    step mode c next = (.space, .outside false) := by
  have apart : identCont c = false := by
    simp only [isSpace, Bool.or_eq_true, decide_eq_true_eq] at space
    rcases space with (((rfl | rfl) | rfl) | rfl) | rfl <;> decide
  obtain ⟨inWord, same⟩ := @step_of_isOutside mode c next outside apart
  simp [same, stepOutside, space]

theorem step_dashes {mode : Mode} (outside : mode.isOutside = true) :
    step mode '-' (some '-') = (.comment, .lineComment) := by
  obtain ⟨inWord, same⟩ := @step_of_isOutside mode '-' (some '-') outside (by decide)
  simp [same, stepOutside, isSpace]

theorem step_slashStar {mode : Mode} (outside : mode.isOutside = true) :
    step mode '/' (some '*') = (.comment, .blockPair (some 0)) := by
  obtain ⟨inWord, same⟩ := @step_of_isOutside mode '/' (some '*') outside (by decide)
  simp [same, stepOutside, isSpace]

theorem step_quote {mode : Mode} {next : Option Char} (outside : mode.isOutside = true) :
    step mode '\'' next = (.literal, .literal false) := by
  obtain ⟨inWord, same⟩ := @step_of_isOutside mode '\'' next outside (by decide)
  simp [same, stepOutside, isSpace]

/-- A character that opens nothing, whatever follows it, unless it is an E in front of a quote. -/
def plain (c : Char) : Bool :=
  c != '\'' && c != '"' && c != '$' && c != '-' && c != '/'

theorem step_plain {mode : Mode} {c : Char} {next : Option Char} (outside : mode.isOutside = true)
    (opens : plain c = true) (noQuote : next ≠ some '\'') :
    (step mode c next).2.isOutside = true := by
  simp only [plain, Bool.and_eq_true, bne_iff_ne] at opens
  obtain ⟨⟨⟨⟨quote, double⟩, dollar⟩, dash⟩, slash⟩ := opens
  have fromOutside (inWord : Bool) : (stepOutside inWord c next).2.isOutside = true := by
    simp only [stepOutside, quote, double, dollar, dash, slash, noQuote, false_and, and_false,
      if_false]
    split
    · rfl
    · split <;> rfl
  cases mode with
  | outside inWord => exact fromOutside inWord
  | dollarTag tag =>
    rw [step, if_neg dollar]
    split
    · rfl
    · exact fromOutside false
  | _ => cases outside

/-- Plain text leaves nothing open when no quote follows it. -/
theorem scan_plain {text : List Char} {mode : Mode} {next : Option Char}
    (outside : mode.isOutside = true) (opens : ∀ c ∈ text, plain c = true)
    (noQuote : next ≠ some '\'') : (scan mode text next).isOutside = true := by
  induction text generalizing mode with
  | nil => exact outside
  | cons c text ih =>
    refine ih (step_plain outside (opens c List.mem_cons_self) ?_)
      fun other member => opens other (List.mem_cons_of_mem _ member)
    cases text with
    | nil => exact noQuote
    | cons other text =>
      rintro same
      obtain rfl := Option.some.inj same
      have quote := opens '\'' (by simp)
      contradiction

/-- What an escape string may hold: a backslash takes the next character with it. -/
inductive EscapeBody : List Char → Prop
  | nil : EscapeBody []
  | char {c : Char} {rest : List Char} (ordinary : c ≠ '\'' ∧ c ≠ '\\')
      (body : EscapeBody rest) : EscapeBody (c :: rest)
  | pair {c : Char} {rest : List Char} (body : EscapeBody rest) : EscapeBody ('\\' :: c :: rest)

private theorem scan_escapeBody {body : List Char} {next : Option Char} (escaped : EscapeBody body)
    (noQuote : next ≠ some '\'') :
    scan (.literal true) (body ++ ['\'']) next = .outside false := by
  induction escaped with
  | nil => simp [scan, step, noQuote]
  | @char c rest ordinary body ih =>
    have here : (step (.literal true) c (upcoming (rest ++ ['\'']) next)).2 = .literal true := by
      simp [step, ordinary.1, ordinary.2]
    rw [List.cons_append, scan, here]
    exact ih
  | pair body ih => exact ih

/-- An escape string that no word stands in front of and no quote behind is a whole literal. -/
theorem scan_escapeString {body : List Char} {next : Option Char} (escaped : EscapeBody body)
    (noQuote : next ≠ some '\'') :
    scan (.outside false) ('E' :: '\'' :: (body ++ ['\''])) next = .outside false :=
  scan_escapeBody escaped noQuote

/-- A quoted identifier without a double quote inside or behind it is whole. -/
theorem scan_quotedIdentifier {body : List Char} {mode : Mode} {next : Option Char}
    (outside : mode.isOutside = true) (noInner : '"' ∉ body) (noQuote : next ≠ some '"') :
    scan mode ('"' :: (body ++ ['"'])) next = .outside false := by
  obtain ⟨inWord, same⟩ :=
    @step_of_isOutside mode '"' (upcoming (body ++ ['"']) next) outside (by decide)
  have opener : (step mode '"' (upcoming (body ++ ['"']) next)).2 = .quoted := by
    simp [same, stepOutside, isSpace]
  rw [scan, opener]
  clear same opener
  induction body with
  | nil => simp [scan, step, noQuote]
  | cons c body ih =>
    have here : (step .quoted c (upcoming (body ++ ['"']) next)).2 = .quoted := by
      have other : c ≠ '"' := fun same => noInner (by simp [same])
      simp [step, other]
    rw [List.cons_append, scan, here]
    exact ih fun member => noInner (List.mem_cons_of_mem _ member)

/-! ## Comments and literals -/

/-- Inside a line comment everything up to the end of the line is comment. -/
theorem scan_lineComment {body : List Char} (next : Option Char)
    (oneLine : ∀ c ∈ body, ¬ (c = '\n' ∨ c = '\r')) :
    scan .lineComment body next = .lineComment ∧
      ∀ kind ∈ kinds .lineComment body next, kind = .comment := by
  induction body with
  | nil => exact ⟨rfl, by simp [kinds]⟩
  | cons c body ih =>
    have here : step .lineComment c (upcoming body next) = (.comment, .lineComment) := by
      rw [step, if_neg (oneLine c List.mem_cons_self)]
    obtain ⟨rest, inside⟩ := ih fun other member => oneLine other (List.mem_cons_of_mem _ member)
    refine ⟨by rw [scan, here]; exact rest, ?_⟩
    rw [kinds, here]
    exact List.forall_mem_cons.mpr ⟨rfl, inside⟩

/-- A comment that neither ends nor nests within its body ends with the closer behind it. -/
theorem scan_blockComment {body : List Char} (next : Option Char)
    (noCloser : ¬ ['*', '/'] <:+: body ++ ['*']) (noOpener : ¬ ['/', '*'] <:+: body ++ ['*']) :
    scan (.blockComment 0) (body ++ ['*', '/']) next = .outside false ∧
      ∀ kind ∈ kinds (.blockComment 0) (body ++ ['*', '/']) next, kind = .comment := by
  induction body with
  | nil => exact ⟨rfl, by simp [kinds, step]⟩
  | cons c body ih =>
    rw [List.cons_append, List.infix_cons_iff, not_or] at noCloser noOpener
    obtain ⟨rest, inside⟩ := ih noCloser.2 noOpener.2
    have second : upcoming (body ++ ['*', '/']) next = (body ++ ['*']).head? := by
      cases body <;> rfl
    have here : step (.blockComment 0) c (upcoming (body ++ ['*', '/']) next) =
        (.comment, .blockComment 0) := by
      rw [second]
      have starts (a b : Char) (both : c = a ∧ (body ++ ['*']).head? = some b) :
          [a, b] <+: c :: (body ++ ['*']) := by
        obtain ⟨rfl, head⟩ := both
        obtain ⟨tail, same⟩ := List.head?_eq_some_iff.mp head
        exact ⟨tail, by rw [same]; rfl⟩
      rw [step, if_neg fun both => noOpener.1 (starts _ _ both),
        if_neg fun both => noCloser.1 (starts _ _ both)]
    refine ⟨by rw [List.cons_append, scan, here]; exact rest, ?_⟩
    rw [List.cons_append, kinds, here]
    exact List.forall_mem_cons.mpr ⟨rfl, inside⟩

/-- A text without a quote does not end a standard literal. -/
theorem scan_literal {text : List Char} (next : Option Char) (plain : '\'' ∉ text) :
    scan (.literal false) text next = .literal false ∧
      ∀ kind ∈ kinds (.literal false) text next, kind = .literal := by
  induction text with
  | nil => exact ⟨rfl, by simp [kinds]⟩
  | cons c text ih =>
    have here : step (.literal false) c (upcoming text next) = (.literal, .literal false) := by
      have other : c ≠ '\'' := fun same => plain (by simp [same])
      simp [step, other]
    obtain ⟨rest, inside⟩ := ih fun member => plain (List.mem_cons_of_mem _ member)
    refine ⟨by rw [scan, here]; exact rest, ?_⟩
    rw [kinds, here]
    exact List.forall_mem_cons.mpr ⟨rfl, inside⟩

/-! ## Texts one behind the other -/

/-- Code and comments have white space inside of them. -/
def Kind.Admits : Kind → Kind → Prop
  | .code, kind => kind = .code ∨ kind = .space
  | .comment, kind => kind = .comment ∨ kind = .space
  | own, kind => kind = own

/-- From outside, and in front of `next`, the text is read as what it is and leaves nothing open.
The scanner is in a word behind it only if the text ends with a character of one. -/
structure Reads (own : Kind) (inWord : Bool) (text : List Char) (next : Option Char) : Prop where
  kinds : ∀ kind ∈ kinds (.outside inWord) text next, own.Admits kind
  left : ∃ word, scan (.outside inWord) text next = .outside word ∧
    (word = true → text.getLast?.any identCont = true)

/-- At its place the text is read as what it is, from outside. -/
def ReadAs (own : Kind) (before text after : List Char) : Prop :=
  (modeAt before (text ++ after)).isOutside = true ∧
    ∀ kind ∈ kinds (modeAt before (text ++ after)) text after.head?, own.Admits kind

section Texts

variable {α : Type*} (text : α → List Char) (own : α → Kind)

/-- Each text in front of what follows it, whether or not the scanner is in the word that the text
in front of it ends with. -/
def EachReads (items : List α) : Prop :=
  ∀ front item back, items = front ++ item :: back → ∀ inWord : Bool,
    (inWord = true → (front.flatMap text).getLast?.any identCont = true) →
      Reads (own item) inWord (text item) (back.flatMap text).head?

variable {text own} {items : List α}

theorem EachReads.modeAt (reads : EachReads text own items) {front back : List α}
    (split : items = front ++ back) :
    ∃ word, modeAt (front.flatMap text) (back.flatMap text) = .outside word ∧
      (word = true → (front.flatMap text).getLast?.any identCont = true) := by
  induction front using List.reverseRecOn generalizing back with
  | nil => exact ⟨false, rfl, nofun⟩
  | append_singleton front item ih =>
    have cut : items = front ++ item :: back := by rw [split, List.append_assoc]; rfl
    obtain ⟨inWord, mode, ends⟩ := ih cut
    obtain ⟨word, left, ends⟩ := (reads front item back cut inWord ends).left
    refine ⟨word, ?_, fun inside => ?_⟩
    · rw [List.flatMap_append, List.flatMap_singleton, modeAt_append]
      rw [List.flatMap_cons] at mode
      rw [mode, left]
    · have last := ends inside
      rw [List.flatMap_append, List.flatMap_singleton, List.getLast?_append]
      cases own : (text item).getLast? with
      | none => simp [own] at last
      | some c => rwa [own] at last

/-- Then every text is read as what it is at its place among the others. -/
theorem EachReads.readAs (reads : EachReads text own items) {front back : List α} {item : α}
    (split : items = front ++ item :: back) :
    ReadAs (own item) (front.flatMap text) (text item) (back.flatMap text) := by
  obtain ⟨inWord, mode, ends⟩ := reads.modeAt split
  rw [List.flatMap_cons] at mode
  rw [ReadAs, mode]
  exact ⟨rfl, (reads front item back split inWord ends).kinds⟩

end Texts

/-! ### White space and code -/

variable {inWord : Bool} {next : Option Char}

theorem reads_space {c : Char} (space : isSpace c = true) : Reads .space inWord [c] next := by
  have here : step (.outside inWord) c next = (.space, .outside false) := step_space rfl space
  exact ⟨by simp [kinds, here, Kind.Admits], false, by simp [scan, here], nofun⟩

theorem identCont_of_identStart {c : Char} (starts : identStart c = true) : identCont c = true := by
  rw [identCont, starts]
  rfl

theorem head?_append_toList (rest : List Char) (next : Option Char) :
    (rest ++ next.toList).head? = upcoming rest next := by
  cases rest <;> cases next <;> rfl

/-- A pair that is not in the text, nor at its end together with what follows. -/
theorem not_pair {a b : Char} {text : List Char} (inside : ¬ [a, b] <:+: text)
    (behind : next = some b → text.getLast? ≠ some a) : ¬ [a, b] <:+: text ++ next.toList := by
  cases next with
  | none => simpa using inside
  | some n =>
    intro pair
    rcases List.infix_concat_iff.mp pair with ends | within
    · obtain ⟨front, same⟩ := ends
      have split : (front ++ [a]) ++ [b] = text ++ [n] := by simpa using same
      obtain ⟨own, last⟩ := List.append_inj' split rfl
      obtain rfl := List.singleton_inj.mp last
      exact behind rfl (by rw [← own, List.getLast?_concat])
    · exact inside within

theorem not_pair_of_absent {a b : Char} {text : List Char} (absent : a ∉ text) :
    ¬ [a, b] <:+: text ++ next.toList :=
  not_pair (fun within => absent (within.subset List.mem_cons_self))
    fun _ last => absent (List.mem_of_getLast? last)

/-- Text that opens nothing, neither in itself nor together with what follows it. -/
theorem reads_code {text : List Char} (filled : text ≠ [])
    (opens : ∀ c ∈ text, c ≠ '\'' ∧ c ≠ '"' ∧ c ≠ '$')
    (noDashes : ¬ ['-', '-'] <:+: text ++ next.toList)
    (noSlashStar : ¬ ['/', '*'] <:+: text ++ next.toList)
    (noEscape : next = some '\'' → ∀ c ∈ text.getLast?, c ≠ 'E' ∧ c ≠ 'e') :
    Reads .code inWord text next := by
  induction text generalizing inWord with
  | nil => exact absurd rfl filled
  | cons c text ih =>
    obtain ⟨⟨quote, double, dollar⟩, others⟩ := List.forall_mem_cons.mp opens
    rw [List.cons_append, List.infix_cons_iff, not_or] at noDashes noSlashStar
    have starts (a b : Char) (both : c = a ∧ upcoming text next = some b) :
        [a, b] <+: c :: (text ++ next.toList) := by
      obtain ⟨rfl, head⟩ := both
      obtain ⟨tail, same⟩ := List.head?_eq_some_iff.mp ((head?_append_toList text next).trans head)
      exact ⟨tail, by rw [same]; rfl⟩
    have escape : ¬ ((c = 'E' ∨ c = 'e') ∧ upcoming text next = some '\'') := by
      rintro ⟨letter, head⟩
      cases text with
      | nil =>
        obtain ⟨upper, lower⟩ := noEscape head c rfl
        exact letter.elim upper lower
      | cons d text =>
        obtain rfl := Option.some.inj head
        exact (others _ List.mem_cons_self).1 rfl
    have here : ∃ word, (word = true → identCont c = true) ∧
        (step (.outside inWord) c (upcoming text next) = (.code, .outside word) ∨
          step (.outside inWord) c (upcoming text next) = (.space, .outside word)) := by
      by_cases space : isSpace c = true
      · exact ⟨false, nofun, .inr (step_space rfl space)⟩
      · rw [step, stepOutside, if_neg space, if_neg fun both => noDashes.1 (starts _ _ both),
          if_neg fun both => noSlashStar.1 (starts _ _ both), if_neg quote, if_neg double]
        cases inWord with
        | true => exact ⟨identCont c, id, .inl rfl⟩
        | false =>
          rw [if_neg Bool.false_ne_true, if_neg escape, if_neg dollar]
          exact ⟨identStart c, identCont_of_identStart, .inl rfl⟩
    obtain ⟨word, ends, step⟩ := here
    have mode : (PostgresScan.step (.outside inWord) c (upcoming text next)).2 = .outside word := by
      rcases step with step | step <;> rw [step]
    have kind :
        Kind.code.Admits (PostgresScan.step (.outside inWord) c (upcoming text next)).1 := by
      rcases step with step | step <;> rw [step]
      · exact .inl rfl
      · exact .inr rfl
    cases text with
    | nil => exact ⟨by simpa [PostgresScan.kinds] using kind, word, mode, ends⟩
    | cons d text =>
      obtain ⟨inside, left, scanned, last⟩ := @ih word (List.cons_ne_nil _ _) others noDashes.2
        noSlashStar.2 (by simpa only [List.getLast?_cons_cons] using noEscape)
      refine ⟨?_, left, ?_, by rwa [List.getLast?_cons_cons]⟩
      · rw [PostgresScan.kinds, mode]
        exact List.forall_mem_cons.mpr ⟨kind, inside⟩
      · rw [scan, mode]
        exact scanned

/-- A character of a word opens nothing. -/
theorem stepOutside_identCont {c : Char} (next : Option Char) (cont : identCont c = true) :
    stepOutside true c next = (.code, .outside true) := by
  have apart : ∀ d ∈ [' ', '\t', '\n', '\r', '\x0c', '-', '/', '\'', '"'], c ≠ d := by
    rintro d listed rfl
    revert cont
    simp only [List.mem_cons, List.not_mem_nil, or_false] at listed
    rcases listed with rfl | rfl | rfl | rfl | rfl | rfl | rfl | rfl | rfl <;> decide
  simp only [List.forall_mem_cons, List.not_mem_nil, false_implies, implies_true, and_true] at apart
  obtain ⟨blank, tab, newline, return', feed, dash, slash, quote, double⟩ := apart
  simp [stepOutside, isSpace, blank, tab, newline, return', feed, dash, slash, quote, double, cont]

/-- A word that no quote follows. -/
theorem reads_word {c : Char} {rest : List Char} (starts : identStart c = true)
    (others : ∀ d ∈ rest, identCont d = true) (noQuote : next ≠ some '\'') :
    Reads .code inWord (c :: rest) next := by
  have first : step (.outside inWord) c (upcoming rest next) = (.code, .outside true) := by
    have inside := stepOutside_identCont (upcoming rest next) (identCont_of_identStart starts)
    cases inWord with
    | true => exact inside
    | false =>
      have escape : ¬ ((c = 'E' ∨ c = 'e') ∧ upcoming rest next = some '\'') := by
        rintro ⟨-, head⟩
        cases rest with
        | nil => exact noQuote head
        | cons d rest =>
          obtain rfl := Option.some.inj head
          exact Bool.false_ne_true (others _ List.mem_cons_self)
      have dollar : c ≠ '$' := by
        rintro rfl
        cases starts
      rw [stepOutside] at inside
      rw [step, stepOutside]
      split_ifs at inside ⊢ <;> simp_all
  have behind : scan (.outside true) rest next = .outside true ∧
      ∀ kind ∈ kinds (.outside true) rest next, kind = .code := by
    clear first
    induction rest with
    | nil => exact ⟨rfl, by simp [kinds]⟩
    | cons d rest ih =>
      obtain ⟨cont, others⟩ := List.forall_mem_cons.mp others
      obtain ⟨left, inside⟩ := ih others
      have here : step (.outside true) d (upcoming rest next) = (.code, .outside true) :=
        stepOutside_identCont _ cont
      refine ⟨by rw [scan, here]; exact left, ?_⟩
      rw [kinds, here]
      exact List.forall_mem_cons.mpr ⟨rfl, inside⟩
  refine ⟨?_, true, by rw [scan, first]; exact behind.1, fun _ => ?_⟩
  · rw [kinds, first]
    exact List.forall_mem_cons.mpr ⟨.inl rfl, fun kind member => .inl (behind.2 kind member)⟩
  · cases last : (c :: rest).getLast? with
    | none => simp at last
    | some d =>
      rcases List.mem_cons.mp (List.mem_of_getLast? last) with rfl | member
      · exact identCont_of_identStart starts
      · exact others d member

/-! ### Literals and quoted identifiers -/

theorem kinds_escapeBody {body : List Char} (escaped : EscapeBody body) :
    ∀ kind ∈ kinds (.literal true) (body ++ ['\'']) next, kind = .literal := by
  induction escaped with
  | nil => simp [kinds, step]
  | @char c rest ordinary body ih =>
    have here : step (.literal true) c (upcoming (rest ++ ['\'']) next) =
        (.literal, .literal true) := by
      simp [step, ordinary.1, ordinary.2]
    rw [List.cons_append, kinds, here]
    exact List.forall_mem_cons.mpr ⟨rfl, ih⟩
  | pair body ih =>
    exact List.forall_mem_cons.mpr ⟨rfl, List.forall_mem_cons.mpr ⟨rfl, ih⟩⟩

/-- An escape string behind no word. -/
theorem reads_escapeString {body : List Char} (escaped : EscapeBody body)
    (noQuote : next ≠ some '\'') :
    Reads .literal false ('E' :: '\'' :: (body ++ ['\''])) next := by
  refine ⟨?_, false, scan_escapeString escaped noQuote, nofun⟩
  exact List.forall_mem_cons.mpr ⟨rfl, List.forall_mem_cons.mpr ⟨rfl,
    kinds_escapeBody escaped⟩⟩

/-- A standard literal without a quote inside or behind it. -/
theorem reads_literal {body : List Char} (noInner : '\'' ∉ body) (noQuote : next ≠ some '\'') :
    Reads .literal inWord ('\'' :: (body ++ ['\''])) next := by
  have opener : step (.outside inWord) '\'' (upcoming (body ++ ['\'']) next) =
      (.literal, .literal false) := step_quote rfl
  obtain ⟨left, inside⟩ := @scan_literal body (some '\'') noInner
  have closer : step (.literal false) '\'' next = (.literal, .outside false) := by
    simp [step, noQuote]
  refine ⟨?_, false, ?_, nofun⟩
  · rw [kinds, opener, kinds_append]
    change ∀ kind ∈ _ :: (kinds _ _ (some '\'') ++ kinds (scan _ _ (some '\'')) _ _), _
    rw [left, kinds, kinds, upcoming_nil, closer]
    exact List.forall_mem_cons.mpr ⟨rfl, fun kind member =>
      (List.mem_append.mp member).elim (inside kind) List.mem_singleton.mp⟩
  · rw [scan, opener, scan_append]
    change scan (scan _ _ (some '\'')) _ _ = _
    rw [left, scan, scan, upcoming_nil, closer]

/-- A quoted identifier without a double quote inside or behind it. -/
theorem reads_quotedIdentifier {body : List Char} (noInner : '"' ∉ body)
    (noQuote : next ≠ some '"') : Reads .identifier inWord ('"' :: (body ++ ['"'])) next := by
  refine ⟨?_, false, scan_quotedIdentifier rfl noInner noQuote, nofun⟩
  have opener : step (.outside inWord) '"' (upcoming (body ++ ['"']) next) =
      (.identifier, .quoted) := by
    simp [step, stepOutside, isSpace]
  rw [kinds, opener]
  refine List.forall_mem_cons.mpr ⟨rfl, ?_⟩
  clear opener
  induction body with
  | nil => simp [kinds, step, Kind.Admits]
  | cons c body ih =>
    have here : step .quoted c (upcoming (body ++ ['"']) next) = (.identifier, .quoted) := by
      have other : c ≠ '"' := fun same => noInner (by simp [same])
      simp [step, other]
    rw [List.cons_append, kinds, here]
    exact List.forall_mem_cons.mpr ⟨rfl, ih fun member => noInner (List.mem_cons_of_mem _ member)⟩

/-! ### Comments -/

/-- A line comment with the end of its line. -/
theorem reads_lineComment {body ending : List Char}
    (oneLine : ∀ c ∈ body, ¬ (c = '\n' ∨ c = '\r'))
    (ends : ending = ['\n'] ∨ ending = ['\r', '\n']) :
    Reads .comment inWord ('-' :: '-' :: (body ++ ending)) next := by
  have opener : step (.outside inWord) '-' (some '-') = (.comment, .lineComment) := step_dashes rfl
  have second : step .lineComment '-' (upcoming (body ++ ending) next) =
      (.comment, .lineComment) := rfl
  obtain ⟨left, inside⟩ := @scan_lineComment body (upcoming ending next) oneLine
  have ending' : scan .lineComment ending next = .outside false ∧
      ∀ kind ∈ kinds .lineComment ending next, kind = .space := by
    rcases ends with rfl | rfl
    · exact ⟨rfl, by simp [kinds, step]⟩
    · exact ⟨rfl, by simp [kinds, step, stepOutside, isSpace]⟩
  refine ⟨?_, false, ?_, nofun⟩
  · rw [kinds, upcoming_cons, opener, kinds, second, kinds_append, left]
    refine List.forall_mem_cons.mpr ⟨.inl rfl, List.forall_mem_cons.mpr ⟨.inl rfl, ?_⟩⟩
    exact fun kind member => (List.mem_append.mp member).imp (inside kind) (ending'.2 kind)
  · rw [scan, upcoming_cons, opener, scan, second, scan_append, left]
    exact ending'.1

/-- A block comment without another comment inside. -/
theorem reads_blockComment {body : List Char} (noCloser : ¬ ['*', '/'] <:+: body ++ ['*'])
    (noOpener : ¬ ['/', '*'] <:+: body ++ ['*']) :
    Reads .comment inWord ('/' :: '*' :: (body ++ ['*', '/'])) next := by
  have opener : step (.outside inWord) '/' (some '*') = (.comment, .blockPair (some 0)) :=
    step_slashStar rfl
  have second : step (.blockPair (some 0)) '*' (upcoming (body ++ ['*', '/']) next) =
      (.comment, .blockComment 0) := rfl
  obtain ⟨left, inside⟩ := @scan_blockComment body next noCloser noOpener
  refine ⟨?_, false, ?_, nofun⟩
  · rw [kinds, upcoming_cons, opener, kinds, second]
    exact List.forall_mem_cons.mpr ⟨.inl rfl, List.forall_mem_cons.mpr ⟨.inl rfl,
      fun kind member => .inl (inside kind member)⟩⟩
  · rw [scan, upcoming_cons, opener, scan, second]
    exact left

end PostgresScan
