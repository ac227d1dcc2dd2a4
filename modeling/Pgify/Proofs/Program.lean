import Mathlib.Data.List.TakeWhile
import Pgify.Model.Lexer
import Pgify.Model.Program

/-! # What the program reads and translates

The loop over `fgets` takes the standard input apart into lines, and long lines into buffers. It
keeps the whole input exactly when there is no NUL in it, whatever the size of the buffer. The order
of the switches does not matter but for the names of files, of which the last one counts.
-/

namespace Pgify.Program

open Pgify.Model

/-! ## The loop over `fgets` -/

@[simp]
theorem fgets_zero (input : List UInt8) : fgets 0 input = ([], input) := rfl

@[simp]
theorem fgets_nil (room : ℕ) : fgets room [] = ([], []) := by
  cases room <;> rfl

theorem fgets_cons (room : ℕ) (c : UInt8) (input : List UInt8) :
    fgets (room + 1) (c :: input) =
      if c = '\n'.toUInt8 then ([c], input)
      else (c :: (fgets room input).1, (fgets room input).2) := rfl

theorem fgets_append (room : ℕ) (input : List UInt8) :
    (fgets room input).1 ++ (fgets room input).2 = input := by
  induction room generalizing input with
  | zero => rfl
  | succ room ih =>
    cases input with
    | nil => rfl
    | cons c input =>
      rw [fgets_cons]
      split
      · rfl
      · exact congrArg (c :: ·) (ih input)

theorem fgets_ne_nil (room : ℕ) (c : UInt8) (input : List UInt8) :
    (fgets (room + 1) (c :: input)).1 ≠ [] := by
  rw [fgets_cons]
  split <;> exact List.cons_ne_nil _ _

theorem length_fgets_le (room : ℕ) (input : List UInt8) : (fgets room input).1.length ≤ room := by
  induction room generalizing input with
  | zero => exact Nat.le_refl 0
  | succ room ih =>
    cases input with
    | nil => exact Nat.zero_le _
    | cons c input =>
      rw [fgets_cons]
      split
      · exact Nat.succ_le_succ (Nat.zero_le room)
      · exact Nat.succ_le_succ (ih input)

/-- A newline only ends a buffer. -/
theorem newline_fgets {room : ℕ} {input front back : List UInt8}
    (split : (fgets room input).1 = front ++ '\n'.toUInt8 :: back) : back = [] := by
  induction room generalizing input front with
  | zero => simp at split
  | succ room ih =>
    cases input with
    | nil => simp at split
    | cons c input =>
      rw [fgets_cons] at split
      split at split
      · cases front with
        | nil => exact (List.cons.inj split).2.symm
        | cons d front => simp at split
      · next other =>
        cases front with
        | nil => exact absurd (List.cons.inj split).1 other
        | cons d front => exact ih (List.cons.inj split).2

/-- Where input is left, the buffer is full or ends a line. -/
theorem fgets_ends {room : ℕ} {input : List UInt8} (left : (fgets room input).2 ≠ []) :
    (fgets room input).1.getLast? = some '\n'.toUInt8 ∨ (fgets room input).1.length = room := by
  induction room generalizing input with
  | zero => exact Or.inr rfl
  | succ room ih =>
    cases input with
    | nil => exact absurd rfl left
    | cons c input =>
      rw [fgets_cons] at left ⊢
      split at left
      · next newline => exact Or.inl (by rw [if_pos newline, newline]; rfl)
      · next other =>
        rw [if_neg other]
        rcases ih left with line | full
        · exact Or.inl (by rw [List.getLast?_cons, line]; rfl)
        · exact Or.inr (congrArg (· + 1) full)

theorem cString_eq_iff {cbuf : List UInt8} : cString cbuf = cbuf ↔ 0 ∉ cbuf := by
  rw [cString, List.takeWhile_eq_self_iff]
  constructor
  · intro kept member
    simpa using kept 0 member
  · intro absent c member
    simpa using fun same : c = 0 => absent (same ▸ member)

/-- A buffer of the loop: no longer than there is room for, and a newline ends it. -/
structure IsBuffer (size : ℕ) (cbuf : List UInt8) : Prop where
  filled : cbuf ≠ []
  room : cbuf.length < size
  line : ∀ front back, cbuf = front ++ '\n'.toUInt8 :: back → back = []

/-- The buffers of an input: one ends where its line does, or where it is full. -/
structure Buffers (size : ℕ) (input : List UInt8) (cbufs : List (List UInt8)) : Prop where
  whole : cbufs.flatten = input
  own : ∀ cbuf ∈ cbufs, IsBuffer size cbuf
  ended : cbufs.IsChain fun cbuf _ =>
    cbuf.getLast? = some '\n'.toUInt8 ∨ cbuf.length + 1 = size

/-- The loop takes the input apart into buffers and keeps of each what stands in front of a NUL. -/
theorem readLoop_buffers {size : ℕ} (room : 2 ≤ size) {fuel : ℕ} {buffer input : List UInt8}
    (enough : input.length ≤ fuel) :
    ∃ cbufs : List (List UInt8), Buffers size input cbufs ∧
      readLoop size fuel buffer input = buffer ++ cbufs.flatMap cString := by
  induction fuel generalizing buffer input with
  | zero =>
    obtain rfl := List.length_eq_zero_iff.mp (Nat.le_zero.mp enough)
    exact ⟨[], ⟨rfl, List.forall_mem_nil _, .nil⟩, (List.append_nil _).symm⟩
  | succ fuel ih =>
    cases input with
    | nil => exact ⟨[], ⟨rfl, List.forall_mem_nil _, .nil⟩, (List.append_nil _).symm⟩
    | cons c input =>
      obtain ⟨space, rfl⟩ : ∃ space, size = space + 2 := ⟨size - 2, by omega⟩
      have whole := fgets_append (space + 1) (c :: input)
      have filled := fgets_ne_nil space c input
      have short := length_fgets_le (space + 1) (c :: input)
      have shorter : (fgets (space + 1) (c :: input)).2.length ≤ fuel := by
        have positive := List.length_pos_iff.mpr filled
        have length := congrArg List.length whole
        rw [List.length_append] at length
        omega
      obtain ⟨cbufs, behind, read⟩ :=
        @ih (buffer ++ cString (fgets (space + 1) (c :: input)).1) _ shorter
      refine ⟨(fgets (space + 1) (c :: input)).1 :: cbufs, ⟨?_, ?_, ?_⟩, ?_⟩
      · rw [List.flatten_cons, behind.whole, whole]
      · exact List.forall_mem_cons.mpr
          ⟨⟨filled, by omega, fun front back => newline_fgets⟩, behind.own⟩
      · cases cbufs with
        | nil => exact .singleton _
        | cons next cbufs =>
          have left : (fgets (space + 1) (c :: input)).2 ≠ [] := by
            rw [← behind.whole, List.flatten_cons]
            exact List.append_ne_nil_of_left_ne_nil (behind.own _ List.mem_cons_self).filled _
          have ends := fgets_ends left
          exact .cons_cons (ends.imp_right (congrArg (· + 1))) behind.ended
      · rw [readLoop, List.flatMap_cons, ← List.append_assoc]
        exact read

theorem flatMap_cString_eq_iff {cbufs : List (List UInt8)} :
    cbufs.flatMap cString = cbufs.flatten ↔ 0 ∉ cbufs.flatten := by
  constructor
  · intro kept member
    rw [← kept] at member
    obtain ⟨cbuf, -, inside⟩ := List.mem_flatMap.mp member
    simpa using List.mem_takeWhile_imp inside
  · intro absent
    induction cbufs with
    | nil => rfl
    | cons cbuf cbufs ih =>
      rw [List.flatten_cons, List.mem_append, not_or] at absent
      rw [List.flatMap_cons, List.flatten_cons, cString_eq_iff.mpr absent.1, ih absent.2]

/-! ## Switches -/

/-- The switches behind which the program goes on. -/
def Quiet (argv : List Switch) : Prop :=
  ∀ switch ∈ argv, switch ≠ .help ∧ switch ≠ .version ∧ switch ≠ .unknown

/-- The name behind the last `-f`. -/
def lastFile (argv : List Switch) : Option String :=
  (argv.filterMap fun switch => match switch with | .file optarg => some optarg | _ => none).getLast?

/-- Whether debugging was switched on, and the conversions off. -/
def wantedOptions (argv : List Switch) : ℕ :=
  (if .debug ∈ argv then pgifyDebug else 0) ||| (if .escape ∈ argv then 0 else pgifyEscape) |||
    (if .lowercase ∈ argv then 0 else pgifyLowerid)

theorem decodeSwitches_quiet {argv : List Switch} (quiet : Quiet argv) (set : Switches) :
    decodeSwitches set argv =
      .pgoptions ((lastFile argv).or set.fName)
        (Switches.mk none (set.debug || decide (.debug ∈ argv))
          (set.escape && !decide (.escape ∈ argv))
          (set.lowercase && !decide (.lowercase ∈ argv))).pgoptions := by
  induction argv generalizing set with
  | nil => simp [decodeSwitches, lastFile, Switches.pgoptions]
  | cons switch argv ih =>
    obtain ⟨⟨help, version, unknown⟩, rest⟩ := List.forall_mem_cons.mp quiet
    cases switch with
    | help => exact absurd rfl help
    | version => exact absurd rfl version
    | unknown => exact absurd rfl unknown
    | file optarg =>
      rw [decodeSwitches, ih rest]
      simp [lastFile, List.getLast?_cons]
    | debug => rw [decodeSwitches, ih rest]; simp [lastFile]
    | escape => rw [decodeSwitches, ih rest]; simp [lastFile]
    | lowercase => rw [decodeSwitches, ih rest]; simp [lastFile]

/-! ## The program -/

/-- Behind switches that do not end it the program is a filter: it translates the last file that was
named, or else what the standard input holds, under the options that were asked for. Of the standard
input it drops bytes only, in every buffer what stands behind a NUL: it translates all of it exactly
when no NUL is in it. -/
theorem main_filters (rt : Runtime) (front : Frontend (List UInt8)) (programName : String)
    (readFile : String → Option (List UInt8)) {argv : List Switch} (quiet : Quiet argv)
    {stdin : Stdin} (reads : stdin.ferror = false) :
    ∃ cbufs : List (List UInt8), Buffers bufSize stdin.bytes cbufs ∧
      (cbufs.flatMap cString = stdin.bytes ↔ 0 ∉ stdin.bytes) ∧
      main rt front programName readFile argv stdin =
        match (lastFile argv).bind readFile with
        | some input => translateInput rt front (wantedOptions argv) input
        | none =>
          if cbufs.flatMap cString = [] then some ⟨"", 0⟩
          else translateInput rt front (wantedOptions argv) (cbufs.flatMap cString) := by
  obtain ⟨cbufs, buffers, read⟩ := @readLoop_buffers bufSize (by decide) stdin.bytes.length []
    stdin.bytes (Nat.le_refl _)
  refine ⟨cbufs, buffers, buffers.whole ▸ flatMap_cString_eq_iff, ?_⟩
  have options : (Switches.mk none (false || decide (.debug ∈ argv))
      (true && !decide (.escape ∈ argv)) (true && !decide (.lowercase ∈ argv))).pgoptions =
      wantedOptions argv := by
    rw [Switches.pgoptions, wantedOptions]
    by_cases debug : .debug ∈ argv <;> by_cases escape : .escape ∈ argv <;>
      by_cases lowercase : .lowercase ∈ argv <;> simp [debug, escape, lowercase]
  rw [main, decodeSwitches_quiet quiet]
  simp only [options, Option.or_none]
  cases (lastFile argv).bind readFile with
  | some input => rfl
  | none =>
    rw [List.nil_append] at read
    simp only [readStdin, reads, Bool.false_eq_true, if_false, read]
    cases cbufs.flatMap cString with
    | nil => rfl
    | cons c sql => rfl

/-- The lexer, and a parser that accepts no statement. -/
private def hiddenOnly : Frontend (List UInt8) where
  getTokens options input := (lex ⟨id, 0⟩ options input).tokens
  startRule _ _ := none

theorem main_filters_comment :
    main ⟨id, 0⟩ hiddenOnly "pgify" (fun _ => none) [.escape, .file "dump.sql"]
      ⟨bytesOf "-- a\n", false⟩ = some ⟨"-- a\n", 0⟩ := by
  have quiet : Quiet [.escape, .file "dump.sql"] := by simp [Quiet]
  obtain ⟨cbufs, -, kept, printed⟩ := @main_filters ⟨id, 0⟩ hiddenOnly "pgify" (fun _ => none) _
    quiet ⟨bytesOf "-- a\n", false⟩ rfl
  rw [printed, kept.mpr (by decide)]
  decide +kernel

end Pgify.Program
