import Rivulet.Grammar.Recovery

/-!
# Grammars

A grammar is a value: a tree of sequences, alternatives and repetitions whose leaves are tokens and
references to rules. `Gram R α` is the type of grammars that read values of type `α` and refer to
rules by names of the family `R`. Alternatives are ordered, as in a parsing expression grammar.

`Gram.run` gives a grammar its meaning as a parser, relative to parsers for the rules it refers to.
Each constructor is interpreted by one combinator on parsers, defined before.
-/

set_option autoImplicit false

namespace Rivulet.Grammar

/-! ## Combinators -/

namespace Parser

variable {α β : Type}

/-- Read the token `t`. -/
def token (t : Token) : Parser Token := fun c =>
  match c.next? with
  | some (l, c') =>
      if l.token = t then ⟨[], .ok t c' none⟩ else ⟨[], .fail (c.failure [some t])⟩
  | none => ⟨[], .fail (c.failure [some t])⟩

/-- Read a token on which `f` is defined. The failure does not say what was expected. -/
def pick (f : Token → Option α) : Parser α := fun c =>
  match c.next? with
  | some (l, c') =>
      match f l.token with
      | some a => ⟨[], .ok a c' none⟩
      | none => ⟨[], .fail (c.failure [])⟩
  | none => ⟨[], .fail (c.failure [])⟩

/-- Succeed at the end of the text only. -/
def finish : Parser Unit := fun c =>
  match c.rest with
  | [] => ⟨[], .ok () c none⟩
  | _ :: _ => ⟨[], .fail (c.failure [none])⟩

/-- One parser after the other. If the second fails, the rival of the first may have come farther. -/
def seq (p : Parser α) (q : Parser β) : Parser (α × β) := fun c =>
  match p c with
  | ⟨errs, .fail e⟩ => ⟨errs, .fail e⟩
  | ⟨errs, .ok a d rival⟩ =>
      match q d with
      | ⟨errs', .fail e⟩ => ⟨errs ++ errs', .fail (e.fartherOf rival)⟩
      | ⟨errs', .ok b d' rival'⟩ => ⟨errs ++ errs', .ok (a, b) d' (Failure.merge rival rival')⟩

/-- Whether the first list of errors is the better one: it is shorter, or as long and its last
error lies farther on. `none` means that neither is better. -/
def betterErrors? (a b : List Failure) : Option Bool :=
  if a.length < b.length then some true
  else if b.length < a.length then some false
  else
    match a.getLast?, b.getLast? with
    | some x, some y =>
        if y.position < x.position then some true
        else if x.position < y.position then some false
        else none
    | _, _ => none

/-- Choose between two replies of which neither is clean. A value beats a failure. Of two values,
the one with the better errors wins, then the one whose rival came farther, then the first. Of two
failures, the one that came farther wins, then the one with the better errors; otherwise they are
merged. -/
def choose (a b : Reply α) : Reply α :=
  let first : Reply α := ⟨a.errors, a.result.addRival b.result.rival?⟩
  let second : Reply α := ⟨b.errors, b.result.addRival a.result.rival?⟩
  match a.result, b.result with
  | .ok _ _ ra, .ok _ _ rb =>
      match betterErrors? a.errors b.errors with
      | some true => first
      | some false => second
      | none =>
          match ra, rb with
          | some x, some y => if x.position < y.position then second else first
          | _, _ => first
  | .ok _ _ _, .fail _ => first
  | .fail _, .ok _ _ _ => second
  | .fail x, .fail y =>
      if y.position < x.position then first
      else if x.position < y.position then second
      else
        match betterErrors? a.errors b.errors with
        | some true => first
        | some false => second
        | none => ⟨a.errors, .fail (x.farther y)⟩

/-- Ordered choice. The first clean reply wins at once. -/
def orElse (p q : Parser α) : Parser α := fun c =>
  let a := p c
  if a.isClean then a
  else
    let b := q c
    if b.isClean then b else choose a b

/-- Read something or nothing. -/
def optional (p : Parser α) : Parser (Option α) := fun c =>
  match p c with
  | ⟨errs, .ok a d rival⟩ => ⟨errs, .ok (some a) d rival⟩
  | ⟨_, .fail e⟩ => ⟨[], .ok none c (some e)⟩

/-- Run a parser until it fails, at most `n` times. The errors of the failed attempt are dropped,
but the first of them counts as a rival. -/
def manyUpTo (p : Parser α) : Nat → Option Failure → Parser (List α)
  | 0, rival, c => ⟨[], .ok [] c rival⟩
  | n + 1, rival, c =>
      match p c with
      | ⟨errs, .ok a d rival'⟩ =>
          let r := manyUpTo p n (Failure.merge rival rival') d
          ⟨errs ++ r.errors, r.result.map (a :: ·)⟩
      | ⟨errs, .fail e⟩ =>
          ⟨[], .ok [] c (Failure.merge rival (Failure.merge (some e) errs.head?))⟩

/-- Run a parser until it fails. -/
def many (p : Parser α) : Parser (List α) := fun c => manyUpTo p c.rounds none c

/-- Run `sep` and then `item`, until one of them fails, at most `n` times. The cursor of the reply
stands behind the last item; the failure that ended the loop is given beside it. -/
def moreUpTo (item : Parser α) (sep : Parser β) :
    Nat → Option Failure → Cursor → Reply (List α × Option Failure)
  | 0, rival, c => ⟨[], .ok ([], none) c rival⟩
  | n + 1, rival, c =>
      match sep c with
      | ⟨errs, .fail e⟩ => ⟨errs, .ok ([], some e) c rival⟩
      | ⟨errs, .ok _ d rival'⟩ =>
          match item d with
          | ⟨errs', .fail e⟩ =>
              ⟨errs ++ errs', .ok ([], some e) c (Failure.merge rival rival')⟩
          | ⟨errs', .ok a d' rival''⟩ =>
              let r := moreUpTo item sep n (Failure.merge (Failure.merge rival rival') rival'') d'
              ⟨errs ++ errs' ++ r.errors, r.result.map fun (as, e) => (a :: as, e)⟩

/-- Read a last separator if there is one. -/
def trailing (sep : Parser β) (rival : Option Failure) (c : Cursor) : Cursor × Option Failure :=
  match (sep c).result with
  | .ok _ d rival' => (d, Failure.merge rival rival')
  | .fail e => (c, Failure.merge rival (some e))

/-- Items with separators between them, and with one behind them if `allowTrailing`. -/
def sepBy (item : Parser α) (sep : Parser β) (allowTrailing : Bool) : Parser (List α) := fun c =>
  match item c with
  | ⟨errs, .fail e⟩ => ⟨errs, .ok [] c (some e)⟩
  | ⟨errs, .ok a d rival⟩ =>
      match moreUpTo item sep d.rounds rival d with
      | ⟨errs', .fail e⟩ => ⟨errs ++ errs', .fail e⟩
      | ⟨errs', .ok (as, e) d' rival'⟩ =>
          let (d'', rival'') := if allowTrailing then trailing sep rival' d' else (d', rival')
          ⟨errs ++ errs', .ok (a :: as) d'' (Failure.merge rival'' e)⟩

/-- Combine the value with the span of the tokens it was read from. -/
def located (f : α → Span → β) (p : Parser α) : Parser β := fun c =>
  match p c with
  | ⟨errs, .ok a d rival⟩ => ⟨errs, .ok (f a (c.spanTo d)) d rival⟩
  | ⟨errs, .fail e⟩ => ⟨errs, .fail e⟩

/-- On failure, skip a bracketed part. -/
def orSkipBrackets (p : Parser α) (b : Brackets) (placeholder : Span → α) : Parser α := fun c =>
  match p c with
  | ⟨errs, .ok a d rival⟩ => ⟨errs, .ok a d rival⟩
  | ⟨errs, .fail e⟩ => b.recover placeholder errs e c

/-- On failure, skip tokens until the parser succeeds. -/
def orSkipTokens (p : Parser α) : Parser α := fun c =>
  match p c with
  | ⟨errs, .ok a d rival⟩ => ⟨errs, .ok a d rival⟩
  | ⟨errs, .fail e⟩ => retry p errs e c.rounds c.advance

end Parser

/-! ## Grammars as data -/

/-- A grammar for values of type `α` with rules named by `R`. -/
inductive Gram (R : Type → Type) : Type → Type 1 where
  /-- A given token. -/
  | token (t : Token) : Gram R Token
  /-- Any token on which the function is defined. -/
  | pick {α : Type} (f : Token → Option α) : Gram R α
  /-- The end of the text. -/
  | finish : Gram R Unit
  | seq {α β : Type} (a : Gram R α) (b : Gram R β) : Gram R (α × β)
  | map {α β : Type} (f : α → β) (a : Gram R α) : Gram R β
  /-- The first alternative that fits. -/
  | orElse {α : Type} (a b : Gram R α) : Gram R α
  | optional {α : Type} (a : Gram R α) : Gram R (Option α)
  | many {α : Type} (a : Gram R α) : Gram R (List α)
  | sepBy {α β : Type} (item : Gram R α) (sep : Gram R β) (allowTrailing : Bool) : Gram R (List α)
  /-- A value that depends on the span it is read from. -/
  | located {α β : Type} (f : α → Span → β) (a : Gram R α) : Gram R β
  /-- What fits, or else a skipped bracketed part. -/
  | orSkipBrackets {α : Type} (a : Gram R α) (b : Brackets) (placeholder : Span → α) : Gram R α
  /-- What fits, or else the next place where it does. -/
  | orSkipTokens {α : Type} (a : Gram R α) : Gram R α
  /-- What the rule of the given name reads. -/
  | rule {α : Type} (r : R α) : Gram R α

namespace Gram

variable {R : Type → Type} {α β γ : Type}

/-- Both, of which the second counts. -/
def right (a : Gram R α) (b : Gram R β) : Gram R β := .map Prod.snd (.seq a b)

/-- Both, of which the first counts. -/
def left (a : Gram R α) (b : Gram R β) : Gram R α := .map Prod.fst (.seq a b)

/-- Something between two others. -/
def between (o : Gram R α) (a : Gram R β) (c : Gram R γ) : Gram R β := left (right o a) c

/-- A fixed value in place of what is read. -/
def as (a : Gram R α) (b : β) : Gram R β := .map (fun _ => b) a

/-- The parser of a grammar, given parsers for its rules. -/
def run (rules : {α : Type} → R α → Parser α) : {α : Type} → Gram R α → Parser α
  | _, .token t => Parser.token t
  | _, .pick f => Parser.pick f
  | _, .finish => Parser.finish
  | _, .seq a b => Parser.seq (run rules a) (run rules b)
  | _, .map f a => fun c => (run rules a c).map f
  | _, .orElse a b => Parser.orElse (run rules a) (run rules b)
  | _, .optional a => Parser.optional (run rules a)
  | _, .many a => Parser.many (run rules a)
  | _, .sepBy item sep t => Parser.sepBy (run rules item) (run rules sep) t
  | _, .located f a => Parser.located f (run rules a)
  | _, .orSkipBrackets a b placeholder => Parser.orSkipBrackets (run rules a) b placeholder
  | _, .orSkipTokens a => Parser.orSkipTokens (run rules a)
  | _, .rule r => rules r
termination_by structural _ a => a

/-! ## The parser of each form -/

section Run

variable (rules : {α : Type} → R α → Parser α)

theorem run_token (t : Token) : run @rules (.token t) = Parser.token t := rfl

theorem run_pick (f : Token → Option α) : run @rules (.pick f) = Parser.pick f := rfl

theorem run_finish : run @rules .finish = Parser.finish := rfl

theorem run_seq (a : Gram R α) (b : Gram R β) :
    run @rules (.seq a b) = Parser.seq (run @rules a) (run @rules b) := rfl

theorem run_map (f : α → β) (a : Gram R α) (c : Cursor) :
    run @rules (.map f a) c = (run @rules a c).map f := rfl

theorem run_orElse (a b : Gram R α) :
    run @rules (.orElse a b) = Parser.orElse (run @rules a) (run @rules b) := rfl

theorem run_optional (a : Gram R α) :
    run @rules (.optional a) = Parser.optional (run @rules a) := rfl

theorem run_sepBy (a : Gram R α) (b : Gram R β) (t : Bool) :
    run @rules (.sepBy a b t) = Parser.sepBy (run @rules a) (run @rules b) t := rfl

theorem run_located (f : α → Span → β) (a : Gram R α) :
    run @rules (.located f a) = Parser.located f (run @rules a) := rfl

theorem run_orSkipBrackets (a : Gram R α) (b : Brackets) (placeholder : Span → α) :
    run @rules (.orSkipBrackets a b placeholder)
      = Parser.orSkipBrackets (run @rules a) b placeholder := rfl

theorem run_orSkipTokens (a : Gram R α) :
    run @rules (.orSkipTokens a) = Parser.orSkipTokens (run @rules a) := rfl

end Run

end Gram

end Rivulet.Grammar
