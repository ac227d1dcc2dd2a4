import Mathlib.Data.List.TakeWhile
import Pgify.Model.StringLexer

/-! # The value of a string literal on both sides

MySQL and PostgreSQL read the same characters between the quotes, each with its own escapes. The
readings below are lists of code units with the input behind the closing quote. A reading by
PostgreSQL is never longer than the one by MySQL, stretch by stretch, so the two agree as a whole
only where they agree on every escape.
-/

namespace Pgify.Escapes

open Pgify.Model

def isOctal (c : Char) : Bool :=
  48 ≤ c.toNat && c.toNat ≤ 55

def isHex (c : Char) : Bool :=
  (48 ≤ c.toNat && c.toNat ≤ 57) || (65 ≤ c.toNat && c.toNat ≤ 70) ||
    (97 ≤ c.toNat && c.toNat ≤ 102)

def hexValue (c : Char) : ℕ :=
  if c.toNat ≤ 57 then c.toNat - 48 else if c.toNat ≤ 70 then c.toNat - 55 else c.toNat - 87

def ofDigits (base : ℕ) (digits : List ℕ) : ℕ :=
  digits.foldl (fun value digit => value * base + digit) 0

/-- The units of a backslash and `c` for MySQL. -/
def mysqlEscape (c : Char) : List ℕ :=
  if c = '0' then [0]
  else if c = 'b' then [8]
  else if c = 'n' then [10]
  else if c = 'r' then [13]
  else if c = 't' then [9]
  else if c = 'Z' then [26]
  else if c = '%' ∨ c = '_' then [92, c.toNat]
  else [c.toNat]

/-- The string MySQL reads behind the opening quote. -/
def mysqlRead : List Char → Option (List ℕ × List Char)
  | [] => none
  | '\'' :: '\'' :: input => (mysqlRead input).map fun (units, rest) => (39 :: units, rest)
  | '\'' :: input => some ([], input)
  | '\\' :: c :: input =>
    (mysqlRead input).map fun (units, rest) => (mysqlEscape c ++ units, rest)
  | c :: input => (mysqlRead input).map fun (units, rest) => (c.toNat :: units, rest)

/-- The unit of a backslash and `c` for PostgreSQL, and how many characters behind `c` belong to
the escape. -/
def pgEscape (c : Char) (input : List Char) : ℕ × ℕ :=
  if c = 'b' then (8, 0)
  else if c = 'f' then (12, 0)
  else if c = 'n' then (10, 0)
  else if c = 'r' then (13, 0)
  else if c = 't' then (9, 0)
  else if isOctal c then
    let digits := (input.takeWhile isOctal).take 2
    (ofDigits 8 ((c :: digits).map fun digit => digit.toNat - 48) % 256, digits.length)
  else if c = 'x' ∧ (input.takeWhile isHex).length ≥ 1 then
    let digits := (input.takeWhile isHex).take 2
    (ofDigits 16 (digits.map hexValue), digits.length)
  else if c = 'u' ∧ (input.takeWhile isHex).length ≥ 4 then
    (ofDigits 16 ((input.take 4).map hexValue), 4)
  else if c = 'U' ∧ (input.takeWhile isHex).length ≥ 8 then
    (ofDigits 16 ((input.take 8).map hexValue), 8)
  else (c.toNat, 0)

/-- The string PostgreSQL reads behind the `E'`; `skip` characters belong to the escape before. -/
def pgRead : (skip : ℕ) → List Char → Option (List ℕ × List Char)
  | _, [] => none
  | skip + 1, _ :: input => pgRead skip input
  | 0, '\'' :: '\'' :: input => (pgRead 0 input).map fun (units, rest) => (39 :: units, rest)
  | 0, '\'' :: input => some ([], input)
  | 0, '\\' :: c :: input =>
    (pgRead (pgEscape c input).2 input).map fun (units, rest) =>
      ((pgEscape c input).1 :: units, rest)
  | 0, c :: input => (pgRead 0 input).map fun (units, rest) => (c.toNat :: units, rest)

/-- The escapes that the two sides read differently: `\Z`, `\%`, `\_`, `\f`, the octal digits except
a single zero, and `\x`, `\u`, `\U` with the hex digits that PostgreSQL asks for. -/
def escapeDiffers (c : Char) (input : List Char) : Bool :=
  c = 'Z' || c = '%' || c = '_' || c = 'f' ||
    (isOctal c && (c != '0' || input.head?.any isOctal)) ||
    (c = 'x' && (input.takeWhile isHex).length ≥ 1) ||
    (c = 'u' && (input.takeWhile isHex).length ≥ 4) ||
    (c = 'U' && (input.takeWhile isHex).length ≥ 8)

/-- A closing quote ends the literal. -/
def isClosed : List Char → Bool
  | [] => false
  | '\'' :: '\'' :: input => isClosed input
  | '\'' :: _ => true
  | '\\' :: _ :: input => isClosed input
  | _ :: input => isClosed input

/-- No escape in front of the closing quote is read differently. -/
def escapesAgree : List Char → Bool
  | [] => true
  | '\'' :: '\'' :: input => escapesAgree input
  | '\'' :: _ => true
  | '\\' :: c :: input => !escapeDiffers c input && escapesAgree input
  | _ :: input => escapesAgree input

def mysqlLiteral : List Char → Option (List ℕ × List Char)
  | '\'' :: input => mysqlRead input
  | _ => none

def pgLiteral : List Char → Option (List ℕ × List Char)
  | 'E' :: '\'' :: input => pgRead 0 input
  | _ => none

/-! ## One escape -/

/-- A character that neither side treats as special. -/
private def Plain (c : Char) : Prop := c ≠ '\'' ∧ c ≠ '\\'

private theorem plain_of_isHex {c : Char} (hex : isHex c = true) : Plain c := by
  constructor <;> (rintro rfl; revert hex; decide)

private theorem plain_of_isOctal {c : Char} (octal : isOctal c = true) : Plain c := by
  constructor <;> (rintro rfl; revert octal; decide)

private theorem take_of_takeWhile {p : Char → Bool} {input : List Char} {n : ℕ}
    (bound : n ≤ (input.takeWhile p).length) :
    n ≤ input.length ∧ ∀ x ∈ input.take n, p x = true := by
  have front : input.take n = (input.takeWhile p).take n := by
    have split := List.takeWhile_append_dropWhile (p := p) (l := input)
    calc input.take n = (input.takeWhile p ++ input.dropWhile p).take n := by rw [split]
      _ = (input.takeWhile p).take n := List.take_append_of_le_length bound
  refine ⟨bound.trans (List.takeWhile_prefix p).length_le, fun x member => ?_⟩
  rw [front] at member
  exact List.mem_takeWhile_imp (List.mem_of_mem_take member)

/-- What an escape consumes behind its character is plain, and PostgreSQL's unit is all of what
MySQL reads on that stretch exactly when the escape is not among those that differ. -/
private structure EscapeSpec (c : Char) (input : List Char) : Prop where
  bound : (pgEscape c input).2 ≤ input.length
  plain : ∀ x ∈ input.take (pgEscape c input).2, Plain x
  alone : escapeDiffers c input = false → (pgEscape c input).2 = 0
  same : escapeDiffers c input = false ↔ [(pgEscape c input).1] =
    mysqlEscape c ++ (input.take (pgEscape c input).2).map Char.toNat

/-- An escape of one character on both sides. -/
private theorem EscapeSpec.of_single {c : Char} {input : List Char} (unit : ℕ)
    (pg : pgEscape c input = (unit, 0))
    (same : escapeDiffers c input = false ↔ [unit] = mysqlEscape c) : EscapeSpec c input where
  bound := by simp [pg]
  plain := by simp [pg]
  alone _ := by rw [pg]
  same := by simpa [pg] using same

/-- An escape with digits behind its character is longer for MySQL. -/
private theorem EscapeSpec.of_digits {c : Char} {input : List Char} {unit n : ℕ} {p : Char → Bool}
    (pg : pgEscape c input = (unit, n)) (some' : 1 ≤ n) (many : n ≤ (input.takeWhile p).length)
    (plain : ∀ x, p x = true → Plain x) (read : mysqlEscape c = [c.toNat])
    (differs : escapeDiffers c input = true) : EscapeSpec c input := by
  obtain ⟨bound, digits⟩ := take_of_takeWhile many
  refine ⟨by rw [pg]; exact bound, fun x member => ?_, by simp [differs], ?_⟩
  · rw [pg] at member
    exact plain x (digits x member)
  · simp only [differs, Bool.true_eq_false, pg, read, false_iff]
    intro equal
    have size := congrArg List.length equal
    simp only [List.length_cons, List.length_append, List.length_map, List.length_take,
      List.length_nil] at size
    omega

/-- Both readings of a backslash before an octal digit, and where they differ. -/
private theorem octal_readings {c : Char} (octal : isOctal c = true) (input : List Char) :
    pgEscape c input = (ofDigits 8 ((c :: (input.takeWhile isOctal).take 2).map
        fun digit => digit.toNat - 48) % 256, ((input.takeWhile isOctal).take 2).length) ∧
      mysqlEscape c = (if c = '0' then [0] else [c.toNat]) ∧
      escapeDiffers c input = (c != '0' || input.head?.any isOctal) := by
  have range : 48 ≤ c.toNat ∧ c.toNat ≤ 55 := by simpa [isOctal] using octal
  have apart {d : Char} (outside : ¬ (48 ≤ d.toNat ∧ d.toNat ≤ 55)) : c ≠ d := by
    rintro rfl
    exact outside range
  refine ⟨?_, ?_, ?_⟩
  · simp [pgEscape, octal, apart (d := 'b') (by decide), apart (d := 'f') (by decide),
      apart (d := 'n') (by decide), apart (d := 'r') (by decide), apart (d := 't') (by decide)]
  · simp [mysqlEscape, apart (d := 'b') (by decide), apart (d := 'n') (by decide),
      apart (d := 'r') (by decide), apart (d := 't') (by decide), apart (d := 'Z') (by decide),
      apart (d := '%') (by decide), apart (d := '_') (by decide)]
  · simp [escapeDiffers, octal, apart (d := 'Z') (by decide), apart (d := '%') (by decide),
      apart (d := '_') (by decide), apart (d := 'f') (by decide), apart (d := 'x') (by decide),
      apart (d := 'u') (by decide), apart (d := 'U') (by decide)]

private theorem any_head_isOctal (input : List Char) :
    input.head?.any isOctal = true ↔ (input.takeWhile isOctal).take 2 ≠ [] := by
  cases input with
  | nil => simp
  | cons d input => cases next : isOctal d <;> simp [next]

/-- A single digit has the same value on both sides only if it is zero. -/
private theorem octal_spec_single {c : Char} (octal : isOctal c = true) {input : List Char}
    (alone : (input.takeWhile isOctal).take 2 = []) : EscapeSpec c input := by
  obtain ⟨pg, read, differs⟩ := octal_readings octal input
  have range : 48 ≤ c.toNat ∧ c.toNat ≤ 55 := by simpa [isOctal] using octal
  have single : pgEscape c input = (c.toNat - 48, 0) := by
    rw [pg, alone]
    simp only [List.map_cons, List.map_nil, ofDigits, List.foldl_cons, List.foldl_nil,
      List.length_nil, Prod.mk.injEq, and_true]
    omega
  refine .of_single _ single ?_
  have noMore : input.head?.any isOctal = false := by
    rw [← Bool.not_eq_true, any_head_isOctal]
    exact fun more => more alone
  rw [differs, noMore, read]
  by_cases zero : c = '0'
  · subst zero
    simp
  · simp only [bne, zero, Bool.or_false, ↓reduceIte, List.cons.injEq, and_true]
    simp only [beq_eq_false_iff_ne.mpr zero, Bool.not_false, Bool.true_eq_false, false_iff]
    omega

/-- With more digits behind it PostgreSQL reads one byte where MySQL reads several. -/
private theorem octal_spec_more {c : Char} (octal : isOctal c = true) {input : List Char}
    (more : (input.takeWhile isOctal).take 2 ≠ []) : EscapeSpec c input := by
  obtain ⟨pg, read, differs⟩ := octal_readings octal input
  have yes : escapeDiffers c input = true := by
    rw [differs, (any_head_isOctal input).mpr more, Bool.or_true]
  have size : 1 ≤ ((input.takeWhile isOctal).take 2).length := List.length_pos_iff.mpr more
  have many : ((input.takeWhile isOctal).take 2).length ≤ (input.takeWhile isOctal).length :=
    List.length_take_le' _ _
  obtain ⟨bound, all⟩ := take_of_takeWhile many
  refine ⟨by rw [pg]; exact bound, fun x member => ?_, by simp [yes], ?_⟩
  · rw [pg] at member
    exact plain_of_isOctal (all x member)
  · have one : (mysqlEscape c).length = 1 := by rw [read]; split <;> rfl
    simp only [yes, Bool.true_eq_false, false_iff]
    intro equal
    have total := congrArg List.length equal
    rw [pg] at total
    simp only [List.length_cons, List.length_append, List.length_map, List.length_take,
      List.length_nil, one] at total size bound
    omega

private theorem octal_spec {c : Char} (octal : isOctal c = true) (input : List Char) :
    EscapeSpec c input := by
  by_cases alone : (input.takeWhile isOctal).take 2 = []
  · exact octal_spec_single octal alone
  · exact octal_spec_more octal alone

private theorem escape_spec (c : Char) (input : List Char) : EscapeSpec c input := by
  by_cases octal : isOctal c = true
  · exact octal_spec octal input
  by_cases hexByte : c = 'x' ∧ (input.takeWhile isHex).length ≥ 1
  · obtain ⟨rfl, digits⟩ := hexByte
    have size : ((input.takeWhile isHex).take 2).length ≤ (input.takeWhile isHex).length :=
      List.length_take_le' _ _
    exact .of_digits (n := ((input.takeWhile isHex).take 2).length)
      (Prod.ext rfl (by simp [pgEscape, isOctal, digits]))
      (by simp only [List.length_take]; omega) size (fun _ => plain_of_isHex) rfl
      (by simp [escapeDiffers, digits])
  by_cases short : c = 'u' ∧ (input.takeWhile isHex).length ≥ 4
  · obtain ⟨rfl, digits⟩ := short
    exact .of_digits (n := 4) (Prod.ext rfl (by simp [pgEscape, isOctal, digits])) (by decide)
      digits (fun _ => plain_of_isHex) rfl (by simp [escapeDiffers, digits])
  by_cases long : c = 'U' ∧ (input.takeWhile isHex).length ≥ 8
  · obtain ⟨rfl, digits⟩ := long
    exact .of_digits (n := 8) (Prod.ext rfl (by simp [pgEscape, isOctal, digits])) (by decide)
      digits (fun _ => plain_of_isHex) rfl (by simp [escapeDiffers, digits])
  by_cases special : c ∈ ['b', 'f', 'n', 'r', 't', 'Z', '%', '_']
  · simp only [List.mem_cons, List.not_mem_nil, or_false] at special
    rcases special with rfl | rfl | rfl | rfl | rfl | rfl | rfl | rfl
    · exact .of_single 8 rfl (iff_of_true rfl rfl)
    · exact .of_single 12 rfl (iff_of_false (by simp [escapeDiffers]) (by decide))
    · exact .of_single 10 rfl (iff_of_true rfl rfl)
    · exact .of_single 13 rfl (iff_of_true rfl rfl)
    · exact .of_single 9 rfl (iff_of_true rfl rfl)
    · exact .of_single 90 rfl (iff_of_false (by simp [escapeDiffers]) (by decide))
    · exact .of_single 37 rfl (iff_of_false (by simp [escapeDiffers]) (by decide))
    · exact .of_single 95 rfl (iff_of_false (by simp [escapeDiffers]) (by decide))
  -- Every other character stands for itself on both sides.
  simp only [List.mem_cons, List.not_mem_nil, or_false, not_or] at special
  obtain ⟨noB, noF, noN, noR, noT, noZ, noPercent, noUnderscore⟩ := special
  have noZero : c ≠ '0' := by
    rintro rfl
    exact octal rfl
  refine .of_single (c.toNat) ?_ (iff_of_true ?_ ?_)
  · simp [pgEscape, octal, hexByte, short, long, noB, noF, noN, noR, noT]
  · rw [← Bool.not_eq_true]
    simp only [escapeDiffers, octal, noZ, noPercent, noUnderscore, noF, Bool.or_eq_true,
      Bool.and_eq_true, decide_eq_true_eq, decide_false, Bool.false_eq_true, false_and,
      false_or]
    exact fun some' => some'.elim (Or.rec hexByte short) long
  · simp [mysqlEscape, noZero, noB, noN, noR, noT, noZ, noPercent, noUnderscore]

/-! ## Whole literals -/

private theorem mysqlRead_plain {c : Char} (plain : Plain c) (input : List Char) :
    mysqlRead (c :: input) =
      (mysqlRead input).map fun (units, rest) => (c.toNat :: units, rest) := by
  rw [mysqlRead.eq_5 c input (fun _ quote _ => plain.1 quote) plain.1
    fun _ _ backslash _ => plain.2 backslash]

private theorem pgRead_plain {c : Char} (plain : Plain c) (input : List Char) :
    pgRead 0 (c :: input) = (pgRead 0 input).map fun (units, rest) => (c.toNat :: units, rest) := by
  rw [pgRead.eq_6 c input (fun _ quote _ => plain.1 quote) plain.1
    fun _ _ backslash _ => plain.2 backslash]

private theorem isClosed_plain {c : Char} (plain : Plain c) (input : List Char) :
    isClosed (c :: input) = isClosed input := by
  rw [isClosed.eq_5 c input (fun _ quote _ => plain.1 quote) plain.1
    fun _ _ backslash _ => plain.2 backslash]

private theorem escapesAgree_plain {c : Char} (plain : Plain c) (input : List Char) :
    escapesAgree (c :: input) = escapesAgree input := by
  rw [escapesAgree.eq_5 c input (fun _ quote _ => plain.1 quote) plain.1
    fun _ _ backslash _ => plain.2 backslash]

private theorem pgRead_skip (n : ℕ) (input : List Char) :
    pgRead n input = pgRead 0 (input.drop n) := by
  induction n generalizing input with
  | zero => rfl
  | succ n ih =>
    cases input with
    | nil => rfl
    | cons c input => exact ih input

private theorem mysqlRead_append {front : List Char} (plain : ∀ c ∈ front, Plain c)
    (input : List Char) :
    mysqlRead (front ++ input) =
      (mysqlRead input).map fun (units, rest) => (front.map Char.toNat ++ units, rest) := by
  induction front with
  | nil => simp
  | cons c front ih =>
    rw [List.cons_append, mysqlRead_plain (plain c List.mem_cons_self),
      ih fun d member => plain d (List.mem_cons_of_mem _ member), Option.map_map]
    rfl

private theorem isClosed_append {front : List Char} (plain : ∀ c ∈ front, Plain c)
    (input : List Char) : isClosed (front ++ input) = isClosed input := by
  induction front with
  | nil => rfl
  | cons c front ih =>
    rw [List.cons_append, isClosed_plain (plain c List.mem_cons_self),
      ih fun d member => plain d (List.mem_cons_of_mem _ member)]

private theorem length_mysqlEscape (c : Char) : 1 ≤ (mysqlEscape c).length := by
  unfold mysqlEscape
  repeat' split
  all_goals simp

/-- The two readings of one input: none, or two strings up to the same closing quote, the one by
PostgreSQL not longer, and equal exactly when the escapes agree. -/
private inductive Readings (input : List Char) : Prop where
  | unclosed (mysql : mysqlRead input = none) (pg : pgRead 0 input = none)
      (closed : isClosed input = false)
  | read (mysqlUnits pgUnits : List ℕ) (rest : List Char)
      (mysql : mysqlRead input = some (mysqlUnits, rest))
      (pg : pgRead 0 input = some (pgUnits, rest)) (closed : isClosed input = true)
      (shorter : pgUnits.length ≤ mysqlUnits.length)
      (same : pgUnits = mysqlUnits ↔ escapesAgree input = true)

/-- A stretch that both sides read, in front of the rest. -/
private theorem Readings.step {input later : List Char} (mysqlFront : List ℕ) (pgFront : ℕ)
    (readings : Readings later)
    (mysql : mysqlRead input =
      (mysqlRead later).map fun (units, rest) => (mysqlFront ++ units, rest))
    (pg : pgRead 0 input = (pgRead 0 later).map fun (units, rest) => (pgFront :: units, rest))
    (closed : isClosed input = isClosed later) (nonempty : 1 ≤ mysqlFront.length)
    (same : escapesAgree input = true ↔ [pgFront] = mysqlFront ∧ escapesAgree later = true) :
    Readings input := by
  cases readings with
  | unclosed noMysql noPg open' =>
    exact .unclosed (by rw [mysql, noMysql]; rfl) (by rw [pg, noPg]; rfl) (closed.trans open')
  | read mysqlUnits pgUnits rest readMysql readPg isClosed shorter agree =>
    refine .read (mysqlFront ++ mysqlUnits) (pgFront :: pgUnits) rest
      (by rw [mysql, readMysql]; rfl)
      (by rw [pg, readPg]; rfl) (closed.trans isClosed)
      (by simp only [List.length_cons, List.length_append]; omega) ?_
    rw [same, ← agree]
    constructor
    · intro equal
      -- The front is no longer than MySQL's, and neither is the rest, so the cut is the same.
      have total := congrArg List.length equal
      simp only [List.length_cons, List.length_append] at total
      exact List.append_inj (show [pgFront] ++ pgUnits = _ from equal)
        (by simp only [List.length_singleton]; omega)
    · rintro ⟨rfl, rfl⟩
      rfl

private theorem readings (input : List Char) : Readings input := by
  match input with
  | [] => exact .unclosed rfl rfl rfl
  | c :: input =>
    by_cases quote : c = '\''
    · subst quote
      cases input with
      | nil => exact .read [] [] [] rfl rfl rfl (Nat.le_refl _) (by simp [escapesAgree])
      | cons d input =>
        by_cases doubled : d = '\''
        · subst doubled
          exact (readings input).step [39] 39 rfl rfl rfl (by decide)
            (by simp [escapesAgree])
        · have noQuote (input' : List Char) : d :: input ≠ '\'' :: input' :=
            fun equal => doubled (List.cons.inj equal).1
          exact .read [] [] (d :: input) (mysqlRead.eq_3 _ noQuote) (pgRead.eq_4 _ noQuote)
            (isClosed.eq_3 _ noQuote) (Nat.le_refl _)
            (by rw [escapesAgree.eq_3 _ noQuote]; simp)
    by_cases backslash : c = '\\'
    · subst backslash
      cases input with
      | nil => exact .unclosed rfl rfl rfl
      | cons d input =>
        have spec := escape_spec d input
        have split := List.take_append_drop (pgEscape d input).2 input
        refine (readings (input.drop (pgEscape d input).2)).step
          (mysqlEscape d ++ (input.take (pgEscape d input).2).map Char.toNat)
          (pgEscape d input).1 ?_ ?_ ?_ ?_ ?_
        · have plain := mysqlRead_append spec.plain (input.drop (pgEscape d input).2)
          rw [split] at plain
          rw [mysqlRead, plain, Option.map_map]
          simp [Function.comp_def]
        · rw [pgRead, pgRead_skip]
        · have plain := isClosed_append spec.plain (input.drop (pgEscape d input).2)
          rw [split] at plain
          rw [isClosed, plain]
        · rw [List.length_append]
          exact Nat.le_add_right_of_le (length_mysqlEscape d)
        · rw [← spec.same, escapesAgree, Bool.and_eq_true, Bool.not_eq_true']
          refine and_congr_right fun same => ?_
          rw [spec.alone same, List.drop_zero]
    · have plain : Plain c := ⟨quote, backslash⟩
      exact (readings input).step [c.toNat] c.toNat
        (mysqlRead_plain plain input) (pgRead_plain plain input) (isClosed_plain plain input)
        (Nat.le_refl 1) (by simp [escapesAgree_plain plain])
termination_by input.length
decreasing_by all_goals simp only [List.length_cons, List.length_drop]; omega

theorem pgRead_eq_mysqlRead_iff (input : List Char) :
    pgRead 0 input = mysqlRead input ↔ (isClosed input = true → escapesAgree input = true) := by
  cases readings input with
  | unclosed mysql pg closed => simp [mysql, pg, closed]
  | read mysqlUnits pgUnits rest mysql pg closed shorter same => simp [mysql, pg, closed, same]

theorem isClosed_of_mysqlRead {input rest : List Char} {units : List ℕ}
    (read : mysqlRead input = some (units, rest)) : isClosed input = true := by
  cases readings input with
  | unclosed mysql pg closed =>
    rw [mysql] at read
    cases read
  | read mysqlUnits pgUnits rest mysql pg closed shorter same => exact closed

/-- With escapes on, the printed literal has the same value for PostgreSQL as the original has for
MySQL if and only if the literal is not closed or none of its escapes is read differently. -/
theorem quotedString_value_iff (options : ℕ) (escape : pgifyIsEscape options = true)
    (input span rest : List Char) (text : String)
    (token : nextTokenAtQuote options input = some (⟨.quotedString, span, text⟩, rest)) :
    text.toList = 'E' :: span ∧
      (pgLiteral text.toList = mysqlLiteral span ↔
        (isClosed span.tail = true → escapesAgree span.tail = true)) := by
  obtain ⟨-, body, -, -, rfl, rfl⟩ := quotedString_token token
  rw [if_pos escape]
  have printed : ("E" ++ String.ofList ('\'' :: body)).toList = 'E' :: '\'' :: body := by simp
  rw [printed]
  exact ⟨rfl, pgRead_eq_mysqlRead_iff body⟩

/-- `'100\%'` keeps its backslash for MySQL and loses it for PostgreSQL. -/
theorem not_quotedString_value_percent :
    nextTokenAtQuote pgifyEscape "'100\\%'".toList =
        some (⟨.quotedString, "'100\\%'".toList, "E'100\\%'"⟩, []) ∧
      pgLiteral "E'100\\%'".toList ≠ mysqlLiteral "'100\\%'".toList := by
  decide

theorem quotedString_value_newline :
    nextTokenAtQuote pgifyEscape "'a\\nb'".toList =
        some (⟨.quotedString, "'a\\nb'".toList, "E'a\\nb'"⟩, []) ∧
      (pgLiteral "E'a\\nb'".toList = mysqlLiteral "'a\\nb'".toList ↔
        (isClosed "a\\nb'".toList = true → escapesAgree "a\\nb'".toList = true)) :=
  ⟨by decide, (quotedString_value_iff pgifyEscape (by decide) "'a\\nb'".toList "'a\\nb'".toList []
    "E'a\\nb'" (by decide)).2⟩

end Pgify.Escapes
