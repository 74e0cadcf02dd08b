import Mathlib
import Arith64.Proofs.Reading

/-!
# The reader, one action at a time

The reader as a cursor over the tokens of a text, with a counter of its nesting
and a stack of the expressions that it is inside of. It looks at a token, moves
on, or begins an expression inside another one, and nothing says yet that it
stays among the tokens or comes to an end. What its routines read is what
`TokenStream.readExpr` reads.
-/

namespace Arith64

/-! ## Routines -/

/-- What is left to do of a reading, action by action. -/
inductive Routine (α : Type) where
  | done (result : α)
  | fail (error : SyntaxError)
  /-- Looks at the token at the cursor. -/
  | peek (next : Token → Routine α)
  /-- Takes the token at the cursor and moves on to the next one, if there is one. -/
  | bump (next : Token → Routine α)
  /-- Reads the expression that starts at the cursor. -/
  | inner (next : Expr → Routine α)

namespace Routine

def bind {α β : Type} : Routine α → (α → Routine β) → Routine β
  | done a, f => f a
  | fail err, _ => fail err
  | peek next, f => peek fun t => (next t).bind f
  | bump next, f => bump fun t => (next t).bind f
  | inner next, f => inner fun e => (next e).bind f

instance : Monad Routine where
  pure := done
  bind := bind

def look : Routine Token := peek done

def take : Routine Token := bump done

def readInner : Routine Expr := inner done

/-- Steps over a lexeme where it stands, and says whether it did. -/
def consume (wanted : Lexeme) : Routine Bool := do
  let t ← look
  if t.lexeme = wanted then
    let _ ← take
    return true
  else
    return false

/-- Steps over the one lexeme that can stand here. -/
def expect (wanted : Lexeme) : Routine Unit := do
  let t ← look
  if t.lexeme = wanted then
    let _ ← take
    return ()
  else
    fail ⟨t.start, .expected wanted t.lexeme⟩

/-- The digits of a literal and the end of it. -/
def digits (negative : Bool) : Routine Expr := do
  let t ← take
  match t.lexeme with
  | .integer magnitude =>
    match signedWord? negative magnitude with
    | some value => do
      expect .closeParen
      return .literal value
    | none => fail ⟨t.start, .literalOutOfRange⟩
  | found => fail ⟨t.start, .expectedInteger found⟩

/-- A literal behind its marker. -/
def literal : Routine Expr := do
  expect .openParen
  let negative ← consume .minus
  digits negative

/-- What stands behind an opening parenthesis: a group or an infix operation. -/
def paren : Routine Expr := do
  let left ← readInner
  if ← consume .closeParen then
    return .group left
  else
    let t ← take
    match BinOp.ofInfix? t.lexeme with
    | some op => do
      let right ← readInner
      expect .closeParen
      return .binary op left right
    | none => fail ⟨t.start, .expectedInfix t.lexeme⟩

/-- What stands behind a name that starts at byte `start`. -/
def named (text : String) (start : Nat) : Routine Expr :=
  if text = "i64" then literal
  else
    match BinOp.ofCallName? text with
    | some op => do
      expect .openParen
      let left ← readInner
      expect .comma
      let right ← readInner
      expect .closeParen
      return .binary op left right
    | none => fail ⟨start, .unknownFunction text⟩

def primary : Routine Expr := do
  let t ← take
  match t.lexeme with
  | .openParen => paren
  | .name text => named text t.start
  | found => fail ⟨t.start, .unexpected found⟩

/-- An expression, once it is known not to be nested too deeply. -/
def expr : Routine Expr := do
  if ← consume .minus then
    let operand ← readInner
    return .negate operand
  else
    primary

/-- An expression and the end of the text behind it. -/
def text : Routine Expr := do
  let e ← readInner
  expect .endOfText
  return e

end Routine

/-! ## Runs -/

/-- An expression that is being read. -/
structure Level where
  /-- Where the cursor was when the expression began. -/
  start : Nat
  /-- What goes on around the expression with what it comes to. -/
  next : Expr → Routine Expr

inductive Phase where
  /-- An expression has begun, and its nesting is not checked yet. -/
  | entering
  | running (routine : Routine Expr)
  /-- An error is on its way out of the levels. -/
  | raising (error : SyntaxError)

/-- A reader at one point of its run, with the innermost level in front. -/
structure Reader where
  phase : Phase
  position : Nat
  nesting : Nat
  levels : List Level

namespace Reader

def start : Reader := ⟨.running .text, 0, 0, []⟩

/-- Where the cursor goes when a token is taken. It stays at the last one. -/
def onward (tokens : List Token) (position : Nat) : Nat :=
  if position + 1 < tokens.length then position + 1 else position

/-- One action of a reader. There is none if it asks for a token where there is none. -/
def step (tokens : List Token) (r : Reader) : Option Reader :=
  match r.phase with
  | .entering =>
    if nestingLimit < r.nesting then do
      -- the level is left, and the nesting goes on to count it
      let t ← tokens[r.position]?
      return { r with phase := .raising ⟨t.start, .nestedTooDeeply⟩, levels := r.levels.tail }
    else
      some { r with phase := .running .expr }
  | .running (.peek next) => do
    let t ← tokens[r.position]?
    return { r with phase := .running (next t) }
  | .running (.bump next) => do
    let t ← tokens[r.position]?
    return { r with phase := .running (next t), position := onward tokens r.position }
  | .running (.inner next) =>
    some { r with
      phase := .entering
      nesting := r.nesting + 1
      levels := ⟨r.position, next⟩ :: r.levels }
  | .running (.fail err) => some { r with phase := .raising err }
  | .running (.done e) =>
    match r.levels with
    | [] => some r
    | level :: outer =>
      some { r with phase := .running (level.next e), nesting := r.nesting - 1, levels := outer }
  | .raising _ =>
    match r.levels with
    | [] => some r
    | _ :: outer => some { r with nesting := r.nesting - 1, levels := outer }

/-- What a run has come to, once it is over. -/
def answer? (r : Reader) : Option (Except SyntaxError Expr) :=
  match r.levels, r.phase with
  | [], .running (.done e) => some (.ok e)
  | [], .raising err => some (.error err)
  | _, _ => none

end Reader

/-- The reader of these tokens after some number of actions. -/
def TokenStream.readerAfter (s : TokenStream) : Nat → Option Reader
  | 0 => some .start
  | n + 1 => (s.readerAfter n).bind (Reader.step s.toList)

/-! ## What routines read -/

namespace Routine

variable {α β : Type} {budget : Nat} {s : TokenStream} {wanted : Lexeme}

/-- What a routine comes to on a stream of tokens, with `readExpr` for every expression in it. -/
def eval (budget : Nat) : Routine α → TokenStream → Except SyntaxError (α × TokenStream)
  | done a, s => .ok (a, s)
  | fail err, _ => .error err
  | peek next, s => (next s.front).eval budget s
  | bump next, s => (next s.front).eval budget s.rest
  | inner next, s => do
    let (e, s) ← s.readExpr budget
    (next e).eval budget s

theorem bind_eq (x : Routine α) (f : α → Routine β) : x >>= f = x.bind f := rfl

theorem eval_bind (x : Routine α) (f : α → Routine β) :
    (x >>= f).eval budget s = (x.eval budget s >>= fun p => (f p.1).eval budget p.2) := by
  rw [bind_eq]
  induction x generalizing s with
  | done a => rfl
  | fail err => rfl
  | peek next ih => exact ih _
  | bump next ih => exact ih _
  | inner next ih =>
    simp only [bind, eval]
    cases s.readExpr budget with
    | error err => rfl
    | ok p => exact ih p.1

theorem eval_consume : (consume wanted).eval budget s =
    .ok (s.front.lexeme == wanted, if s.front.lexeme == wanted then s.rest else s) := by
  change (if _ then _ else _ : Routine Bool).eval budget s = _
  by_cases h : s.front.lexeme = wanted
  · rw [if_pos h, h, beq_self_eq_true, if_pos rfl]
    rfl
  · rw [if_neg h, beq_eq_false_iff_ne.mpr h]
    rfl

theorem eval_expect : (expect wanted).eval budget s = (s.expect wanted).map fun s => ((), s) := by
  change (if _ then _ else _ : Routine Unit).eval budget s = _
  unfold TokenStream.expect
  split <;> rfl

theorem eval_take : take.eval budget s = .ok (s.front, s.rest) := rfl

theorem eval_readInner : readInner.eval budget s = s.readExpr budget := by
  change (s.readExpr budget >>= fun p => Except.ok (p.1, p.2)) = _
  cases s.readExpr budget <;> rfl

theorem eval_expect_bind (f : Routine α) : ((do expect wanted; f) : Routine α).eval budget s =
    (do let s ← s.expect wanted; f.eval budget s) := by
  rw [eval_bind, eval_expect]
  cases s.expect wanted <;> rfl

theorem eval_literal : literal.eval budget s = s.readLiteral := by
  unfold literal TokenStream.readLiteral
  rw [eval_expect_bind]
  refine bind_congr fun s1 => ?_
  simp only [digits, eval_bind, eval_consume, eval_take, ok_bind]
  generalize (s1.front.lexeme == .minus) = negative
  generalize (if negative then s1.rest else s1) = s2
  cases hfound : s2.front.lexeme with
  | integer m =>
    dsimp only
    cases signedWord? negative m with
    | some v => exact eval_expect_bind _
    | none => rfl
  | _ => simp only [eval, TokenStream.refuse, hfound]

theorem eval_right {op : BinOp} {l : Expr} :
    ((do let right ← readInner; expect .closeParen; return .binary op l right) :
      Routine Expr).eval budget s =
    (do
      let (right, s) ← s.readExpr budget
      let s ← s.expect .closeParen
      return (.binary op l right, s)) := by
  rw [eval_bind, eval_readInner]
  exact bind_congr fun p => eval_expect_bind _

theorem eval_named {text : String} {start : Nat} : (named text start).eval budget s =
    if text = "i64" then s.readLiteral
    else
      match BinOp.ofCallName? text with
      | some op => do
        let s ← s.expect .openParen
        let (left, s) ← s.readExpr budget
        let s ← s.expect .comma
        let (right, s) ← s.readExpr budget
        let s ← s.expect .closeParen
        return (.binary op left right, s)
      | none => .error ⟨start, .unknownFunction text⟩ := by
  unfold named
  split
  · exact eval_literal
  · cases BinOp.ofCallName? text with
    | none => rfl
    | some op =>
      dsimp only
      rw [eval_expect_bind]
      refine bind_congr fun s1 => ?_
      rw [eval_bind, eval_readInner]
      refine bind_congr fun p => ?_
      rw [eval_expect_bind]
      exact bind_congr fun s2 => eval_right

theorem eval_paren : paren.eval budget s = (do
    let (left, s) ← s.readExpr budget
    if s.front.lexeme = .closeParen then
      return (.group left, s.rest)
    else
      match BinOp.ofInfix? s.front.lexeme with
      | some op => do
        let (right, s) ← s.rest.readExpr budget
        let s ← s.expect .closeParen
        return (.binary op left right, s)
      | none => s.refuse .expectedInfix) := by
  unfold paren
  rw [eval_bind, eval_readInner]
  refine bind_congr fun p => ?_
  rw [eval_bind, eval_consume, ok_bind]
  dsimp only
  by_cases hclose : p.2.front.lexeme = .closeParen
  · rw [if_pos hclose, hclose]
    rfl
  · rw [if_neg hclose, beq_eq_false_iff_ne.mpr hclose, if_neg Bool.false_ne_true,
      if_neg Bool.false_ne_true, eval_bind, eval_take, ok_bind]
    dsimp only
    cases hop : BinOp.ofInfix? p.2.front.lexeme with
    | some op => exact eval_right
    | none => rfl

theorem eval_expr : expr.eval budget s = s.readExpr (budget + 1) := by
  unfold expr TokenStream.readExpr
  rw [eval_bind, eval_consume, ok_bind]
  by_cases hminus : s.front.lexeme = .minus
  · rw [hminus, beq_self_eq_true, if_pos rfl]
    dsimp only
    rw [if_pos rfl, eval_bind, eval_readInner]
    rfl
  · rw [beq_eq_false_iff_ne.mpr hminus, if_neg Bool.false_ne_true]
    dsimp only
    rw [if_neg Bool.false_ne_true, primary, eval_bind, eval_take, ok_bind]
    dsimp only
    cases hfound : s.front.lexeme with
    | minus => exact absurd hfound hminus
    | openParen => exact eval_paren
    | name text => exact eval_named
    | _ => simp only [eval, TokenStream.refuse, hfound]

theorem eval_text : (text.eval budget s).map Prod.fst = (do
    let (e, s) ← s.readExpr budget
    let _ ← s.expect .endOfText
    return e) := by
  unfold text
  rw [eval_bind, eval_readInner]
  cases s.readExpr budget with
  | error err => rfl
  | ok p =>
    rw [ok_bind, eval_expect_bind, ok_bind]
    dsimp only
    cases p.2.expect .endOfText <;> rfl

end Routine

end Arith64
