import Pgify.Proofs.NameWalk

/-! # Names that are rewritten

The lexer sets the text of BLOB and CURRENT_TIMESTAMP, puts an `E` in front of quoted strings under
PGIFY_ESCAPE, and the walk rewrites every FOUND_ROWS and a DOUBLE among the children of CREATE
TABLE. None of this asks whether the token is a name. All other names are printed as they are
spelled.
-/

namespace Pgify.Names

open Model NameWalk

/-- The token of a name. -/
def nameToken (rt : Runtime) (options : ℕ) (type : TokenType) (span : String) (line : ℕ)
    (column : ℤ) : Token :=
  ⟨type, nameText rt options type span, .default, line, column⟩

/-- The spelling in the input; an identifier has its backquotes converted. -/
def sourceSpelling (rt : Runtime) (options : ℕ) (type : TokenType) (span : String) : String :=
  if type = .id then nameText rt options .id span else span

/-- The token is not BLOB, CURRENT_TIMESTAMP or FOUND_ROWS, no quoted string while escapes are on,
and not DOUBLE as the schema of a CREATE TABLE. -/
def Untouched (options : ℕ) (type parent : TokenType) : Prop :=
  type ≠ .other 202 ∧ type ≠ .other 541 ∧ type ≠ .kFoundRows ∧
    ¬ (type = .quotedString ∧ pgifyIsEscape options = true) ∧
      ¬ (type = .kDouble ∧ parent = .tCreateTable)

/-- The nodes whose texts the workers copy into ALTER TABLE and into the trigger function. -/
def copied (children : List Tree) : List Tree :=
  children.flatMap fun child =>
    match child.getType with
    | .tCreateTableFkey => child.children
    | .tCreateTableColumnDef =>
      (child.children.filter (hasType .tCreateTableOnupdate)).flatMap Tree.children
    | _ => []

/-! ## The words of names -/

theorem nameWords_types : ∀ entry ∈ nameWords,
    entry.2.isImaginary = false ∧ entry.2 ≠ .id ∧ entry.2 ≠ .quotedString := by
  decide +kernel

/-- The number of a type that has no name here. -/
private def code : TokenType → ℕ
  | .other code => code
  | _ => 0

private theorem eq_other_of_code {type : TokenType} {n : ℕ} (positive : 0 < n)
    (same : code type = n) : type = .other n := by
  unfold code at same
  split at same
  · rw [same]
  · omega

private theorem code_setTexts : ∀ entry ∈ nameWords, code entry.2 ≠ 202 → code entry.2 ≠ 541 →
    ∀ set ∈ setTexts, code entry.2 ≠ code set.1 := by
  decide +kernel

/-- Of the words that the lexer replaces, two are names. -/
theorem lookup_setTexts : ∀ entry ∈ nameWords, entry.2 ≠ .other 202 → entry.2 ≠ .other 541 →
    setTexts.lookup entry.2 = none := by
  intro entry listed notBlob notNow
  have apart := code_setTexts entry listed
    (fun same => notBlob (eq_other_of_code (by omega) same))
    (fun same => notNow (eq_other_of_code (by omega) same))
  rw [List.lookup_eq_none_iff]
  intro set member
  rw [bne_iff_ne]
  exact fun same => apart set member (congrArg code same)

/-- Each of them, and FOUND_ROWS, is the word of one type. -/
theorem nameWords_word : ∀ entry ∈ nameWords,
    (entry.2 = .other 202 → entry.1 = "BLOB") ∧
      (entry.2 = .other 541 → entry.1 = "CURRENT_TIMESTAMP") ∧
        (entry.2 = .kFoundRows → entry.1 = "FOUND_ROWS") := by
  decide +kernel

theorem nameText_word (rt : Runtime) (options : ℕ) {type : TokenType} (span : String)
    (notId : type ≠ .id) (notString : type ≠ .quotedString) :
    nameText rt options type span = (setTexts.lookup type).getD span := by
  cases type with
  | id => exact absurd rfl notId
  | quotedString => exact absurd rfl notString
  | _ => rfl

theorem Spells.plain {type : TokenType} {span : List Char} (spelled : Spells type span) :
    type.isImaginary = false := by
  cases spelled with
  | keyword listed => exact (nameWords_types _ listed).1
  | _ => rfl

/-- A text with a character that the folded word lacks is no spelling of the word. -/
theorem ne_of_upperCase {span word text : String} (same : upperCase span.toList = word.toList)
    {c : Char} (member : c ∈ text.toList) (folded : c.toUpper ∉ word.toList) : text ≠ span := by
  rintro rfl
  exact folded (same ▸ List.mem_map_of_mem member)

/-! ## The text of a name in the end -/

section Text

variable {rt : Runtime} {options : ℕ} {type parent : TokenType} {span : String} {line : ℕ}
  {column : ℤ} {z : Token}

theorem Final.eq_of_ne (final : Final (nameToken rt options type span line column) parent z)
    (notRows : type ≠ .kFoundRows) (notSchema : ¬ (type = .kDouble ∧ parent = .tCreateTable)) :
    z = nameToken rt options type span line column := by
  have other : ¬ ((nameToken rt options type span line column).type = .kDouble ∧
      parent = .tCreateTable) := notSchema
  rw [Final, if_neg other] at final
  exact final.2.1 notRows

theorem Final.text_foundRows
    (final : Final (nameToken rt options .kFoundRows span line column) parent z) :
    ∃ rows : ℤ, z.text = s!"{rows} AS \"found_rows()\"" := by
  rw [Final, if_neg (by rintro ⟨double, -⟩; cases double)] at final
  exact final.2.2 rfl

theorem word_text_iff {word : String} (listed : (word, type) ∈ nameWords)
    (same : upperCase span.toList = word.toList)
    (final : Final (nameToken rt options type span line column) parent z) :
    z.text = span ↔ Untouched options type parent := by
  obtain ⟨-, notId, notString⟩ := nameWords_types _ listed
  obtain ⟨isBlob, isNow, isRows⟩ := nameWords_word _ listed
  have text := nameText_word rt options span notId notString
  by_cases rows : type = .kFoundRows
  · subst rows
    obtain rfl := isRows rfl
    obtain ⟨n, own⟩ := Final.text_foundRows final
    rw [own]
    have blank : ' ' ∈ (s!"{n} AS \"found_rows()\"").toList := by
      rw [String.toList_append]
      exact List.mem_append_right _ (by decide)
    exact iff_of_false (ne_of_upperCase same blank (by decide)) fun kept => kept.2.2.1 rfl
  by_cases schema : type = .kDouble ∧ parent = .tCreateTable
  · refine iff_of_false (fun kept => ?_) fun kept => kept.2.2.2.2 schema
    obtain ⟨rfl, rfl⟩ := schema
    rw [Final, if_pos ⟨rfl, rfl⟩] at final
    have lengths : (span ++ " PRECISION ").length = span.length :=
      congrArg String.length (final.2.symm.trans kept)
    rw [String.length_append] at lengths
    have longer : 0 < " PRECISION ".length := by decide
    omega
  rw [Final.eq_of_ne final rows schema]
  change nameText rt options type span = span ↔ _
  by_cases blob : type = .other 202
  · subst blob
    obtain rfl := isBlob rfl
    have member : 'X' ∈ "TEXT".toList := by decide
    exact iff_of_false (ne_of_upperCase same member (by decide)) fun kept => kept.1 rfl
  by_cases now : type = .other 541
  · subst now
    obtain rfl := isNow rfl
    have member : ' ' ∈ "NOW ( )".toList := by decide
    exact iff_of_false (ne_of_upperCase same member (by decide)) fun kept => kept.2.1 rfl
  rw [text, lookup_setTexts _ listed blob now]
  exact iff_of_true rfl ⟨blob, now, rows, fun both => notString both.1, schema⟩

/-- Behind all turns a name has its spelling exactly when its token is untouched. -/
theorem text_iff (spelled : Spells type span.toList)
    (final : Final (nameToken rt options type span line column) parent z) :
    z.text = sourceSpelling rt options type span ↔ Untouched options type parent := by
  have identifier (isId : type = .id) :
      z.text = sourceSpelling rt options type span ↔ Untouched options type parent := by
    subst isId
    obtain rfl := Final.eq_of_ne final (by decide) fun schema => by cases schema.1
    refine iff_of_true ?_ ⟨by decide, by decide, by decide, fun both => ?_, fun both => ?_⟩
    · rw [sourceSpelling, if_pos rfl]
      rfl
    · cases both.1
    · cases both.1
  have string (isString : type = .quotedString) :
      z.text = sourceSpelling rt options type span ↔ Untouched options type parent := by
    subst isString
    obtain rfl := Final.eq_of_ne final (by decide) fun schema => by cases schema.1
    have kept : Untouched options .quotedString parent ↔ ¬ pgifyIsEscape options = true := by
      simp [Untouched]
    rw [kept, sourceSpelling, if_neg (by decide)]
    change (if pgifyIsEscape options then "E" else "") ++ span = span ↔ _
    cases pgifyIsEscape options with
    | true =>
      refine iff_of_false (fun same => ?_) (by simp)
      have lengths := congrArg String.length same
      rw [if_pos rfl, String.length_append] at lengths
      have longer : 0 < "E".length := by decide
      omega
    | false => simp
  generalize chars : span.toList = list at spelled
  cases spelled with
  | word => exact identifier rfl
  | doublequoted => exact identifier rfl
  | backquoted => exact identifier rfl
  | quotedString => exact string rfl
  | keyword listed same =>
    rw [sourceSpelling, if_neg (nameWords_types _ listed).2.1]
    exact word_text_iff listed (chars ▸ same) final

end Text

/-! ## Printed names -/

/-- The name stands in the siblings below nodes of the type `parent`, and no other node at its
place; as the schema of a CREATE TABLE it has its dot. -/
def NameAt (name : Token) (parent : TokenType) (forest : List Tree) : Prop :=
  holdsNames parent = true ∧ StandsAll (fun z => z = name) name parent .invalid forest ∧
    DottedAll name forest

/-- Whatever is printed for a name, in the body or as a part of a generated statement, is the
spelling of the name exactly when its token is untouched. -/
theorem printed_name_iff (rt : Runtime) {ws ws' : WalkerState} {forest : List Tree} {root' : Tree}
    {type parent : TokenType} {span : String} {line : ℕ} {column : ℤ}
    (spelled : Spells type span.toList)
    (occurs : NameAt (nameToken rt ws.options type span line column) parent forest)
    (walk : treeWalkWorker rt ws (.node none forest) = some (ws', root')) :
    (∀ leaf ∈ printedLeaves (some root'), ∀ z, leaf.token = some z →
        place z = place (nameToken rt ws.options type span line column) →
          (z.text = sourceSpelling rt ws.options type span ↔
            Untouched ws.options type parent)) ∧
      ∀ table, Handed rt ws forest table → table.getType = .tCreateTable →
        ∀ copy ∈ copied table.children, ∀ z, copy.token = some z →
          place z = place (nameToken rt ws.options type span line column) →
            (z.text = sourceSpelling rt ws.options type span ↔
              Untouched ws.options type parent) := by
  obtain ⟨holds, stands, dotted⟩ := occurs
  have plain : (nameToken rt ws.options type span line column).type.isImaginary = false :=
    Spells.plain spelled
  refine ⟨fun leaf member z own same => ?_, fun table handed isTable copy member z own same => ?_⟩
  · simp only [treeWalkWorker, Option.bind_eq_bind, Option.bind_eq_some_iff] at walk
    obtain ⟨⟨inner, walked⟩, walk, done⟩ := walk
    cases done
    have row := (walkChildren_row plain holds stands dotted walk).1.final (by decide)
    exact text_iff spelled (leavesOf_spot row member own same)
  · have row := handed.row plain holds stands dotted
    obtain ⟨child, childMember, copied⟩ := List.mem_flatMap.mp member
    have below := stands_iff.mp (row child childMember).2
    split at copied
    · exact text_iff spelled ((below copy copied).1 z own same).2.1
    · obtain ⟨clause, clauseMember, copied⟩ := List.mem_flatMap.mp copied
      have inner := stands_iff.mp (below clause (List.mem_filter.mp clauseMember).1).2
      exact text_iff spelled ((inner copy copied).1 z own same).2.1
    · cases copied

/-! ## An alias -/

section Alias

private def word (type : TokenType) (text : String) (column : ℤ) : Tree :=
  .leaf ⟨type, text, .default, 1, column⟩

private def ascii : Runtime := ⟨asciiLower, 0⟩

/-- `SELECT 1 AS name` and the end of the input. -/
private def selectAs (name : Token) : List Tree :=
  [.node (some (.imaginary .tSelectStatement "T_SELECT_STATEMENT"))
    [word .kSelect "SELECT" 0, word .number "1" 7, word .kAs "AS" 9, .leaf name],
    word .eof "<EOF>" 20]

private theorem nameAt_alias (type : TokenType) (span : String) :
    NameAt (nameToken ascii 0 type span 1 12) .tSelectStatement
      (selectAs (nameToken ascii 0 type span 1 12)) := by
  refine ⟨rfl, ?_, ?_⟩
  · simp [selectAs, StandsAll, Stands, Spot, word, Tree.leaf, place, nameToken, Token.imaginary,
      Tree.getType]
  · have empty : Dotted (nameToken ascii 0 type span 1 12) [] :=
      fun i child here => absurd here (by simp)
    simp [selectAs, DottedAll, DottedBelow, word, Tree.leaf, Tree.getType, Token.imaginary, empty]

private theorem spells_word (name : String) {type : TokenType} {span : List Char}
    (listed : (name, type) ∈ nameWords) (same : upperCase span = name.toList) : Spells type span :=
  .keyword listed same

theorem printed_name_iff_avg : ∃ ws' root',
    treeWalkWorker ascii (walkerstateNew 0)
        (.node none (selectAs (nameToken ascii 0 (.other 315) "Avg" 1 12))) =
      some (ws', root') ∧
      ∀ leaf ∈ printedLeaves (some root'), ∀ z, leaf.token = some z →
        place z = (1, 12) → z.text = "Avg" := by
  refine ⟨_, _, rfl, fun leaf member z own same => ?_⟩
  have spelled : Spells (.other 315) "Avg".toList :=
    spells_word "AVG" (by decide +kernel) (by decide)
  have printed := (@printed_name_iff ascii (walkerstateNew 0) _ _ _ _ _ _ _ _ spelled
    (nameAt_alias (.other 315) "Avg") rfl).1 leaf member z own same
  have untouched : Untouched 0 (.other 315) .tSelectStatement := by
    refine ⟨by decide, by decide, by decide, fun both => ?_, fun both => ?_⟩
    · cases both.1
    · cases both.1
  exact printed.mpr untouched

/-- The alias of `SELECT 1 AS blob` is printed as TEXT. -/
theorem not_printed_blob :
    Spells (.other 202) "blob".toList ∧
      NameAt (nameToken ascii 0 (.other 202) "blob" 1 12) .tSelectStatement
        (selectAs (nameToken ascii 0 (.other 202) "blob" 1 12)) ∧
      sourceSpelling ascii 0 (.other 202) "blob" = "blob" ∧
      ∃ ws' root', treeWalkWorker ascii (walkerstateNew 0)
          (.node none (selectAs (nameToken ascii 0 (.other 202) "blob" 1 12))) =
            some (ws', root') ∧
        (printTree [] (some root')).text = "SELECT1ASTEXT" := by
  refine ⟨spells_word "BLOB" (by decide +kernel) (by decide),
    nameAt_alias (.other 202) "blob", rfl, _, _, rfl, rfl⟩

end Alias

end Pgify.Names
