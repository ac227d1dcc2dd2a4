import Pgify.Model.Printer

/-! # Calls of the library

A caller keeps one walker state over its calls. `pgify_string_s` parses, walks and prints an input;
`pgify` hands out the walked tree, which `pgify_string_tree` prints later. Both print the postbuf of
the walker state that the calls share.
-/

namespace Pgify.Model

variable {ι : Type*}

/-- The generated lexer and parser: the token vector and the AST of an input, under the options. -/
structure Frontend (ι : Type*) where
  getTokens : (options : ℕ) → ι → List Token
  startRule : (options : ℕ) → ι → Option Tree

/-- What `pgify` hands out, without the walker state that it points to. -/
structure PgifyTree where
  langAST : Option Tree
  tokens : List Token

/-- The tree with its hidden tokens, without the postbuf. -/
def PgifyTree.body (pt : PgifyTree) : String :=
  (printTree pt.tokens pt.langAST).text

def pgifyStringTree (pt : PgifyTree) (ws : WalkerState) : String × WalkerState :=
  printPostbuf pt.body ws

/-- A body with the generated statements behind it. -/
def withGenerated (body generated : String) : String :=
  if generated = "" then body else body ++ "\n" ++ generated

theorem printPostbuf_eq (body : String) (ws : WalkerState) :
    printPostbuf body ws = (withGenerated body ws.postbuf, { ws with postbuf := "" }) := by
  rw [printPostbuf, withGenerated]
  split
  · next filled =>
    rw [if_neg fun empty => by simp [empty] at filled]
  · next empty =>
    have none : ws.postbuf = "" := String.length_eq_zero_iff.mp (by omega)
    rw [if_pos none, ← none]

/-- Behind one body, different statements print differently. -/
theorem withGenerated_inj {body first second : String} :
    withGenerated body first = withGenerated body second ↔ first = second := by
  refine ⟨fun same => ?_, fun same => by rw [same]⟩
  have length (text : String) (filled : text ≠ "") :
      body.length < (body ++ "\n" ++ text).length := by
    have newline : "\n".length = 1 := rfl
    rw [String.length_append, String.length_append, newline]
    omega
  rw [withGenerated, withGenerated] at same
  split at same <;> split at same
  · next none1 none2 => rw [none1, none2]
  · next none1 filled2 => exact absurd (congrArg String.length same) (Nat.ne_of_lt (length _ filled2))
  · next filled1 none2 => exact absurd (congrArg String.length same) (Nat.ne_of_gt (length _ filled1))
  · exact (String.append_right_inj _).mp same

namespace Frontend

variable (front : Frontend ι)

/-- Parse an input and walk its AST. -/
def pgify (rt : Runtime) (input : ι) (state : WalkerState) : Option (PgifyTree × WalkerState) :=
  (Model.pgify rt state (front.startRule state.options input)).map fun (walked, langAST) =>
    (⟨langAST, front.getTokens state.options input⟩, walked)

def pgifyStringS (rt : Runtime) (sql : ι) (ws : WalkerState) : Option (String × WalkerState) :=
  (front.pgify rt sql ws).map fun (pt, ws) => pgifyStringTree pt ws

/-- The state behind calls of `pgify_string_s` that all return. -/
def calls : List (Runtime × ι) → WalkerState → Option WalkerState
  | [], ws => some ws
  | (rt, sql) :: rest, ws => (front.pgifyStringS rt sql ws).bind fun (_, ws) => calls rest ws

theorem calls_append (first second : List (Runtime × ι)) (ws : WalkerState) :
    front.calls (first ++ second) ws = (front.calls first ws).bind (front.calls second) := by
  induction first generalizing ws with
  | nil => rfl
  | cons call rest ih =>
    obtain ⟨rt, sql⟩ := call
    simp only [List.cons_append, calls, ih]
    cases front.pgifyStringS rt sql ws <;> rfl

end Frontend

end Pgify.Model
