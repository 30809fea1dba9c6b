import Rivulet.Grammar.Cursor

/-!
# Recovery

A failed parser can be made to succeed in two ways. `Brackets.recover` gives up on a bracketed part
as a whole and goes on behind its closing bracket. `retry` skips tokens until the parser succeeds.
Either way the failure is kept among the errors of the reply.
-/

set_option autoImplicit false

namespace Rivulet.Grammar

variable {α : Type}

/-! ## Skipping a bracketed part -/

/-- A pair of brackets to be balanced, with the other pairs that may occur inside. -/
structure Brackets where
  opening : Token
  closing : Token
  others : List (Token × Token)

namespace Brackets

/-- What is known while looking for the closing bracket. -/
structure Scan where
  /-- The number of open brackets. -/
  depth : Nat
  /-- For each other pair, how many more of it were opened than closed. -/
  balances : List Int
  /-- Where the open brackets stand, the innermost first. -/
  openings : List Span
  /-- The first sign of a missing closing bracket. -/
  noted : Option Failure

/-- The scan before the first token. -/
def begin (b : Brackets) : Scan := ⟨0, b.others.map fun _ => 0, [], none⟩

/-- The failure of a missing closing bracket, noticed at `position`. -/
def missing (b : Brackets) (position : Nat) (span : Span) (found : Option Token) (s : Scan) :
    Scan :=
  match s.noted, s.openings with
  | some _, _ => s
  | none, opening :: openings =>
      { s with
        openings := openings
        noted :=
          some ⟨position, span, found, .unclosed opening b.opening, [some b.closing]⟩ }
  | none, [] => { s with noted := some ⟨position, span, found, .unexpected, [some b.closing]⟩ }

/-- Count a token of another pair. If it closes more than was opened, directly inside the brackets
to be balanced, then their closing bracket is missing. -/
def countOthers (b : Brackets) (position : Nat) (l : Lexeme) :
    List (Token × Token) → List Int → Scan → List Int × Scan
  | (o, c) :: others, n :: balances, s =>
      let n' := if l.token = o then n + 1 else if l.token = c then n - 1 else n
      let s' :=
        if l.token ≠ o ∧ l.token = c ∧ n' < 0 ∧ s.depth = 1 then
          b.missing position l.span (some l.token) s
        else s
      let (ns, s'') := countOthers b position l others balances s'
      (n' :: ns, s'')
  | _, _, s => ([], s)

/-- Look for the bracket that closes the first one. The answer is the number of tokens up to and
with it, if it is found, and the first sign of a missing closing bracket, if there was one. -/
def scan (b : Brackets) (ending : Span) (position : Nat) (s : Scan) :
    List Lexeme → Option Nat × Option Failure
  | [] => (none, if s.depth = 1 then (b.missing position ending none s).noted else s.noted)
  | l :: rest =>
      if l.token = b.opening then
        let (n, noted) :=
          scan b ending (position + 1)
            { s with depth := s.depth + 1, openings := l.span :: s.openings } rest
        (n.map (· + 1), noted)
      else if l.token = b.closing then
        if s.depth ≤ 1 then (if s.depth = 1 then some 1 else none, s.noted)
        else
          let (n, noted) :=
            scan b ending (position + 1)
              { s with depth := s.depth - 1, openings := s.openings.tail } rest
          (n.map (· + 1), noted)
      else
        let (balances, s') := b.countOthers position l b.others s.balances s
        if s'.depth = 0 then (none, s'.noted)
        else
          let (n, noted) := scan b ending (position + 1) { s' with balances := balances } rest
          (n.map (· + 1), noted)

/-- Recover from a failure at the cursor `c` by skipping a bracketed part, for which `placeholder`
stands. The failure itself is reported too, unless a missing bracket in front of it has been. -/
def recover (b : Brackets) (placeholder : Span → α) (errors : List Failure) (failure : Failure)
    (c : Cursor) : Reply α :=
  let (skipped, noted) := b.scan c.ending c.position b.begin c.rest
  let errors := errors ++ noted.toList
  match skipped with
  | none => ⟨errors, .fail failure⟩
  | some n =>
      let d := c.advanceBy n
      let covered := errors.getLast?.any fun e => e.position ≤ failure.position
      ⟨if covered then errors else errors ++ [failure], .ok (placeholder (c.spanTo d)) d none⟩

end Brackets

/-! ## Skipping to the next success -/

/-- Run `p` at the cursor and, as long as it fails, one token farther on. -/
def retry (p : Parser α) (errors : List Failure) (failure : Failure) : Nat → Cursor → Reply α
  | 0, _ => ⟨errors, .fail failure⟩
  | n + 1, c =>
      match p c with
      | ⟨errs, .ok a d rival⟩ => ⟨errs ++ [failure], .ok a d rival⟩
      | ⟨_, .fail _⟩ =>
          match c.next? with
          | some (_, c') => retry p errors failure n c'
          | none => ⟨errors, .fail failure⟩

end Rivulet.Grammar
