import Mathlib
import ScalarLang.Proofs.Parse.Joining

/-
  Parsing to a depth.
  The parsers count what they read, so that they end by definition. Here are the same parsers
  without these counts. All that they have is how deep calls may nest, every turn of a loop being
  a call, and they give nothing at all if that is not deep enough. For a parser that goes on for
  ever no depth is enough. But on every stream these parsers end, from some depth on, and as the
  counted ones do if these may count as far as there are tokens.
-/

namespace ScalarLang

/-- Parsers that give nothing at all if calls would nest too deep. -/
abbrev Nesting := ExceptT ParseError (StateT Stream Option)

namespace Nesting

variable {α β : Type}

/-- A parser that ends. -/
def ends (x : Parser α) : Nesting α := fun s => some (x s)

def fail (kind : ParseErrorKind) (span : Span) (hint : Option String) : Nesting α :=
  ends (Parser.fail kind span hint)

/-- A call that is nested too deep. -/
def tooDeep : Nesting α := fun _ => none

/-! ## Expressions -/

mutual

def expression : Nat → Nat → Nesting Node
  | 0, _ => tooDeep
  | depth + 1, level => do
    let lhs ← operand depth
    climb depth level lhs

def climb : Nat → Nat → Node → Nesting Node
  | 0, _, _ => tooDeep
  | depth + 1, level, lhs => do
    let token ← ends Parser.current
    match token.kind.binaryOp? with
    | none => return lhs
    | some op =>
      if op.precedence < level then return lhs
      else
        ends Parser.advance
        let rhs ← expression depth (op.precedence + 1)
        climb depth level (.binary (lhs.span.hull rhs.span) op lhs rhs)

def operand : Nat → Nesting Node
  | 0 => tooDeep
  | depth + 1 => do
    let token ← ends Parser.current
    if token.kind = .minus then
      ends Parser.advance
      let next ← ends Parser.current
      if next.kind = .int && NumberToken.isMinMagnitude next.lexeme then
        ends Parser.advance
        return .literal (token.span.hull next.span) (.signed (BitVec.intMin 64))
      else
        let inner ← operand depth
        return .negate (token.span.hull inner.span) inner
    else primary depth

def primary : Nat → Nesting Node
  | 0 => tooDeep
  | depth + 1 => do
    let token ← ends Parser.current
    match token.literal? with
    | some (.ok value) =>
      ends Parser.advance
      return .literal token.span value
    | some (.error e) =>
      ends Parser.advance
      fail (.invalidNumber e) token.span none
    | none =>
      match token.kind with
      | .ident => nameOrCall depth
      | .lParen => parenthesized depth
      | .ifWord => conditional depth .ifForm
      | .whenWord => conditional depth .whenForm
      | .defWord => fail .nestedFunction token.span none
      | _ => fail .expectedExpression token.span none

def nameOrCall : Nat → Nesting Node
  | 0 => tooDeep
  | depth + 1 => do
    let callee ← ends Parser.expectIdent
    let next ← ends Parser.current
    if next.kind = .lParen then
      ends Parser.advance
      let args ← arguments depth
      let close ← ends (Parser.expect .rParen)
      return .call (callee.span.hull close.span) callee args
    else return .name callee.span callee.text

def arguments : Nat → Nesting (List Node)
  | 0 => tooDeep
  | depth + 1 => do
    let token ← ends Parser.current
    if token.kind = .rParen || token.kind = .eof then return []
    else
      let arg ← expression depth 0
      let next ← ends Parser.current
      if next.kind = .comma then
        ends Parser.advance
        let rest ← arguments depth
        return arg :: rest
      else return [arg]

def parenthesized : Nat → Nesting Node
  | 0 => tooDeep
  | depth + 1 => do
    ends Parser.advance
    let inner ← expression depth 0
    let _ ← ends (Parser.expect .rParen)
    return inner

def conditional : Nat → ConditionalForm → Nesting Node
  | 0, _ => tooDeep
  | depth + 1, form => do
    let start ← ends Parser.current
    ends Parser.advance
    let test ← expression depth 0
    let thenArm ← expression depth 0
    let next ← ends Parser.current
    if next.kind = .elseWord then
      ends Parser.advance
      let elseArm ← expression depth 0
      return .conditional (start.span.hull elseArm.span) form test thenArm elseArm
    else
      ends (Parser.unexpected (.token .elseWord)
        (some (form.keyword ++ " <test> <then> else <else>")))

end

/-! ## Fragments -/

def body : Nat → Nesting (List Node)
  | 0 => tooDeep
  | depth + 1 => do
    let token ← ends Parser.current
    if token.kind = .rBrace || token.kind = .eof then return []
    else if token.kind = .defWord then fail .nestedFunction token.span none
    else
      let node ← expression depth 0
      ends (Parser.endOfStatement .rBrace)
      ends Parser.skipSeparators
      let rest ← body depth
      return node :: rest

def functionDef (depth : Nat) : Nesting Node := do
  let start ← ends (Parser.expect .defWord)
  let name ← ends Parser.expectIdent
  let _ ← ends (Parser.expect .lParen)
  let next ← ends Parser.current
  if next.kind ≠ .rParen then
    fail .parametersUnsupported next.span
      (some "functions take no arguments: def name() \x7b ... \x7d")
  else
    let _ ← ends (Parser.expect .rParen)
    let _ ← ends (Parser.expect .lBrace)
    ends Parser.skipSeparators
    let nodes ← body depth
    let close ← ends (Parser.expect .rBrace)
    let span := start.span.hull close.span
    if nodes.isEmpty then
      fail .emptyFunctionBody span (some "the last statement of a function is its return value")
    else return .function span name [] nodes

def statement (depth : Nat) : Nesting Node := do
  let token ← ends Parser.current
  if token.kind = .defWord then functionDef depth else expression depth 0

def topLevel (depth : Nat) : Nesting Node := do
  let node ← statement depth
  ends (Parser.endOfStatement .eof)
  return node

/-- One turn: a statement and the separators after it. After an error everything up to the next
    separator is dropped. -/
def turn (depth : Nat) (s : Stream) : Option (Except ParseError Node × Stream) := do
  let (result, t) ← (topLevel depth s : Option (Except ParseError Node × Stream))
  match result with
  | .ok node => return (.ok node, t.skipSeparators)
  | .error e => return (.error e, t.skipStatement.skipSeparators)

/-- Turn after turn, until no tokens are left. -/
def collect : Nat → Stream → Option (List Node × List ParseError)
  | 0, _ => none
  | depth + 1, s => do
    if s.tokens.isEmpty then return ([], [])
    else
      let (result, t) ← turn depth s
      let (nodes, errors) ← collect depth t
      match result with
      | .ok node => return (node :: nodes, errors)
      | .error e => return (nodes, e :: errors)

/-- The fragment of a source, or all that is wrong with it. -/
def parse (depth : Nat) (source : String) : Option (Except (List ParseError) Fragment) :=
  match Token.lexErrors source with
  | [] =>
    (collect depth (Stream.ofSource source).skipSeparators).map fun
      | (nodes, []) => .ok ⟨nodes⟩
      | (_, errors) => .error errors
  | errors => some (.error (errors.map .ofLexError))

/-! ## Depths that are enough -/

/-- What calls give however deep they may nest, from some depth on. -/
def Settles (u : Nat → Option α) (a : α) : Prop :=
  ∃ depth, ∀ more, depth ≤ more → u more = some a

namespace Settles

variable {u : Nat → Option α} {a b : α}

theorem unique (h : Settles u a) (h' : Settles u b) : a = b := by
  obtain ⟨depth, h⟩ := h
  obtain ⟨depth', h'⟩ := h'
  have ha := h (depth + depth') (Nat.le_add_right _ _)
  have hb := h' (depth + depth') (Nat.le_add_left _ _)
  exact Option.some.inj (ha.symm.trans hb)

theorem const (a : α) : Settles (fun _ => some a) a := ⟨0, fun _ _ => rfl⟩

theorem bind {f : α → Nat → Option β} {b : β} (h : Settles u a) (hf : Settles (f a) b) :
    Settles (fun depth => (u depth).bind fun a => f a depth) b := by
  obtain ⟨depth, h⟩ := h
  obtain ⟨depth', hf⟩ := hf
  refine ⟨depth + depth', fun more hmore => ?_⟩
  show (u more).bind _ = some b
  rw [h more (by omega), Option.bind_some, hf more (by omega)]

theorem map {f : α → β} (h : Settles u a) : Settles (fun depth => (u depth).map f) (f a) := by
  obtain ⟨depth, h⟩ := h
  refine ⟨depth, fun more hmore => ?_⟩
  show (u more).map f = some (f a)
  rw [h more hmore, Option.map_some]

/-- One call deeper. -/
theorem succ (h : Settles (fun depth => u (depth + 1)) a) : Settles u a := by
  obtain ⟨depth, h⟩ := h
  refine ⟨depth + 1, fun more hmore => ?_⟩
  obtain ⟨more, rfl⟩ := Nat.exists_eq_add_of_le' hmore
  exact h (more + depth) (Nat.le_add_left _ _)

end Settles

/-! ## Agreement -/

/-- Without counts, the parser ends as the other one does, and leaves a part of the tokens. -/
structure Agrees (u : Nat → Nesting α) (x : Parser α) (s : Stream) : Prop where
  rest : (x s).2.RestOf s
  same : Settles (u · s) (x s)

namespace Agrees

variable {u : Nat → Nesting α} {x : Parser α} {s : Stream}

theorem run (h : Agrees u x s) {r : Except ParseError α} {t : Stream} (hx : x s = (r, t)) :
    t.RestOf s ∧ Settles (u · s) (r, t) := by
  obtain ⟨hrest, hsame⟩ := h
  rw [hx] at hrest hsame
  exact ⟨hrest, hsame⟩

theorem succ (h : Agrees (fun depth => u (depth + 1)) x s) : Agrees u x s :=
  ⟨h.rest, h.same.succ⟩

theorem pure (a : α) : Agrees (fun _ => pure a) (pure a) s := ⟨.refl s, .const _⟩

theorem fail (kind : ParseErrorKind) (span : Span) (hint : Option String) :
    Agrees (fun _ => fail kind span hint : Nat → Nesting α) (Parser.fail kind span hint) s :=
  ⟨.refl s, .const _⟩

theorem bind {f : α → Nat → Nesting β} {g : α → Parser β} (h : Agrees u x s)
    (hf : ∀ a t, x s = (.ok a, t) → t.RestOf s → Agrees (f a) (g a) t) :
    Agrees (fun depth => u depth >>= fun a => f a depth) (x >>= g) s := by
  rcases hr : x s with ⟨e | a, t⟩ <;> obtain ⟨hrest, hsame⟩ := h.run hr
  · constructor
    · rwa [Parser.bind_apply, hr]
    · rw [Parser.bind_apply, hr]
      exact hsame.bind (.const _)
  · obtain ⟨hrest', hsame'⟩ := hf a t hr hrest
    constructor
    · rw [Parser.bind_apply, hr]
      exact hrest'.trans hrest
    · rw [Parser.bind_apply, hr]
      exact hsame.bind hsame'

theorem current {f : Token → Nat → Nesting β} {g : Token → Parser β}
    (h : Agrees (f s.current) (g s.current) s) :
    Agrees (fun depth => ends Parser.current >>= (f · depth)) (Parser.current >>= g) s :=
  ⟨h.rest, h.same⟩

theorem advance {f : Unit → Nat → Nesting β} {g : Unit → Parser β}
    (h : Agrees (f ()) (g ()) s.advance) :
    Agrees (fun depth => ends Parser.advance >>= (f · depth)) (Parser.advance >>= g) s :=
  ⟨h.rest.trans ⟨List.tail_suffix _, rfl⟩, h.same⟩

theorem skipSeparators : Agrees (fun _ => ends Parser.skipSeparators) Parser.skipSeparators s :=
  ⟨s.skipSeparators_rest, .const _⟩

theorem ite {c : Prop} [Decidable c] {u' : Nat → Nesting α} {x' : Parser α}
    (h : c → Agrees u x s) (h' : ¬ c → Agrees u' x' s) :
    Agrees (fun depth => if c then u depth else u' depth) (if c then x else x') s := by
  split
  · exact h ‹_›
  · exact h' ‹_›

/-- A test before a parser that goes on. -/
theorem refuse {c : Prop} [Decidable c] {kind : ParseErrorKind} {span : Span}
    {hint : Option String} {f : Unit → Parser α} (h : ¬ c → Agrees u (f ()) s) :
    Agrees (fun depth => if c then Nesting.fail kind span hint else u depth)
      (if c then Parser.fail kind span hint >>= f else f ()) s :=
  ite (fun _ => ⟨.refl s, .const _⟩) h

theorem expect (kind : TokenKind) :
    Agrees (fun _ => ends (Parser.expect kind)) (Parser.expect kind) s := by
  refine ⟨?_, .const _⟩
  show ((if s.current.kind = kind then _ else _ : Parser Token) s).2.RestOf s
  split
  · exact ⟨List.tail_suffix _, rfl⟩
  · exact .refl s

theorem expectIdent : Agrees (fun _ => ends Parser.expectIdent) Parser.expectIdent s := by
  refine ⟨?_, .const _⟩
  show ((if s.current.kind = .ident then _ else _ : Parser Ident) s).2.RestOf s
  split
  · exact ⟨List.tail_suffix _, rfl⟩
  · exact .refl s

theorem endOfStatement (closer : TokenKind) :
    Agrees (fun _ => ends (Parser.endOfStatement closer)) (Parser.endOfStatement closer) s := by
  refine ⟨?_, .const _⟩
  show ((if s.current.kind.isSeparator || s.current.kind = closer then _ else _ : Parser Unit)
    s).2.RestOf s
  split <;> exact .refl s

end Agrees

section Nested

variable {n : Nat} {expr : Nat → Parser Node}
  (hexpr : ∀ level (s : Stream), s.tokens.length < n → Agrees (expression · level) (expr level) s)
include hexpr

theorem arguments_agrees {count : Nat} {s : Stream} (hs : s.tokens.length < n)
    (hlen : s.tokens.length < count) : Agrees arguments (Parser.arguments (expr 0) count) s := by
  induction count generalizing s with
  | zero => omega
  | succ count ih =>
      refine .succ ?_
      refine .current (.ite (fun _ => .pure []) fun _ => (hexpr 0 s hs).bind fun arg t _ ht => ?_)
      have hle := ht.length_le
      refine .current (.ite (fun hcomma => ?_) fun _ => .pure [arg])
      have hlt := Stream.length_advance (s := t) (by rw [hcomma]; exact TokenKind.noConfusion)
      exact .advance ((ih (by omega) (by omega)).bind fun rest _ _ _ => .pure (arg :: rest))

theorem nameOrCall_agrees {count : Nat} {s : Stream} (hs : s.tokens.length ≤ n)
    (hlen : s.tokens.length ≤ count) :
    Agrees nameOrCall (Parser.nameOrCall (Parser.arguments (expr 0) count)) s := by
  refine .succ ?_
  refine Agrees.expectIdent.bind fun callee t _ ht => ?_
  have hle := ht.length_le
  refine .current (.ite (fun hopening => ?_) fun _ => .pure _)
  have hlt := Stream.length_advance (s := t) (by rw [hopening]; exact TokenKind.noConfusion)
  refine .advance ((arguments_agrees hexpr (by omega) (by omega)).bind fun args _ _ _ => ?_)
  exact (Agrees.expect _).bind fun close _ _ _ => .pure _

theorem parenthesized_agrees {s : Stream} (hs : s.tokens.length ≤ n)
    (hne : s.current.kind ≠ .eof) : Agrees parenthesized (Parser.parenthesized (expr 0)) s := by
  have hlt := Stream.length_advance hne
  refine .succ ?_
  refine .advance ((hexpr 0 _ (by omega)).bind fun inner _ _ _ => ?_)
  exact (Agrees.expect _).bind fun _ _ _ _ => .pure inner

theorem conditional_agrees (form : ConditionalForm) {s : Stream} (hs : s.tokens.length ≤ n)
    (hne : s.current.kind ≠ .eof) :
    Agrees (conditional · form) (Parser.conditional (expr 0) form) s := by
  have hlt := Stream.length_advance hne
  refine .succ ?_
  refine .current (.advance ((hexpr 0 _ (by omega)).bind fun test t _ ht => ?_))
  have hle := ht.length_le
  refine (hexpr 0 _ (by omega)).bind fun thenArm u _ hu => ?_
  have hle' := hu.length_le
  refine .current (.ite (fun helse => ?_) fun _ => ⟨.refl u, .const _⟩)
  have hlt' := Stream.length_advance (s := u) (by rw [helse]; exact TokenKind.noConfusion)
  exact .advance ((hexpr 0 _ (by omega)).bind fun elseArm _ _ _ => .pure _)

theorem primary_agrees {count : Nat} {s : Stream} (hs : s.tokens.length ≤ n)
    (hlen : s.tokens.length ≤ count) : Agrees primary (Parser.primary (expr 0) count) s := by
  refine .succ ?_
  refine .current ?_
  rcases s.current.literal? with _ | (e | value)
  · cases hkind : s.current.kind
    case ident => exact nameOrCall_agrees hexpr hs hlen
    case lParen => exact parenthesized_agrees hexpr hs (by simp [hkind])
    case ifWord | whenWord => exact conditional_agrees hexpr _ hs (by simp [hkind])
    all_goals exact .fail _ _ _
  · exact .advance (.fail _ _ _)
  · exact .advance (.pure _)

theorem operand_agrees {count : Nat} {s : Stream} (hs : s.tokens.length ≤ n)
    (hlen : s.tokens.length < count) : Agrees operand (Parser.operand (expr 0) count) s := by
  induction count generalizing s with
  | zero => omega
  | succ count ih =>
      refine .succ ?_
      refine .current (.ite (fun hminus => ?_) fun _ => primary_agrees hexpr hs (by omega))
      have hlt := Stream.length_advance (s := s) (by rw [hminus]; exact TokenKind.noConfusion)
      refine .advance (.current (.ite (fun _ => .advance (.pure _)) fun _ => ?_))
      exact (ih (by omega) (by omega)).bind fun inner _ _ _ => .pure _

theorem climb_agrees (level : Nat) {count : Nat} {s : Stream} (hs : s.tokens.length ≤ n)
    (hlen : s.tokens.length < count) (lhs : Node) :
    Agrees (climb · level lhs) (Parser.climb expr level count lhs) s := by
  induction count generalizing s lhs with
  | zero => omega
  | succ count ih =>
      refine .succ ?_
      refine .current ?_
      cases hop : s.current.kind.binaryOp? with
      | none => exact .pure lhs
      | some op =>
        have hne : s.current.kind ≠ .eof := fun he => by rw [he] at hop; cases hop
        have hlt := Stream.length_advance hne
        refine .ite (fun _ => .pure lhs) fun _ => .advance ((hexpr _ _ (by omega)).bind ?_)
        intro rhs t _ ht
        have hle := ht.length_le
        exact ih (by omega) (by omega) _

end Nested

theorem expression_agrees {fuel : Nat} (level : Nat) {s : Stream} (hs : s.tokens.length < fuel) :
    Agrees (expression · level) (Parser.expression fuel level) s := by
  induction fuel generalizing level s with
  | zero => omega
  | succ fuel ih =>
      have hnested : ∀ level (s : Stream), s.tokens.length < fuel →
          Agrees (expression · level) (Parser.expression fuel level) s :=
        fun level s hs => ih level hs
      refine .succ ?_
      refine (operand_agrees hnested (by omega) hs).bind fun lhs t _ ht => ?_
      have hle := ht.length_le
      exact climb_agrees hnested level (by omega) (by omega) lhs

theorem body_agrees {fuel count : Nat} {s : Stream} (hs : s.tokens.length < fuel)
    (hlen : s.tokens.length < count) :
    Agrees body (Parser.body (Parser.expression fuel 0) count) s := by
  induction count generalizing s with
  | zero => omega
  | succ count ih =>
      refine .succ ?_
      refine .current (.ite (fun _ => .pure []) fun _ => .refuse fun _ => ?_)
      refine (expression_agrees 0 hs).bind fun node t hread _ => ?_
      have hlt := Parser.length_lt_of_takes (Parser.expression_derives hs) hread
      refine (Agrees.endOfStatement _).bind fun _ u _ hu => ?_
      refine Agrees.skipSeparators.bind fun _ v _ hv => ?_
      have hle := (hv.trans hu).length_le
      exact (ih (by omega) (by omega)).bind fun rest _ _ _ => .pure (node :: rest)

theorem functionDef_agrees {fuel : Nat} {s : Stream} (hs : s.tokens.length < fuel) :
    Agrees functionDef (Parser.functionDef (Parser.expression fuel 0) fuel) s := by
  refine (Agrees.expect _).bind fun start s₁ _ h₁ => ?_
  refine Agrees.expectIdent.bind fun name s₂ _ h₂ => ?_
  refine (Agrees.expect _).bind fun _ s₃ _ h₃ => .current (.refuse fun _ => ?_)
  refine (Agrees.expect _).bind fun _ s₄ _ h₄ => (Agrees.expect _).bind fun _ s₅ _ h₅ => ?_
  refine Agrees.skipSeparators.bind fun _ s₆ _ h₆ => ?_
  have hle := (h₆.trans (h₅.trans (h₄.trans (h₃.trans (h₂.trans h₁))))).length_le
  refine (body_agrees (by omega) (by omega)).bind fun nodes s₇ _ _ => ?_
  exact (Agrees.expect _).bind fun close _ _ _ => .refuse fun _ => .pure _

theorem topLevel_agrees {fuel : Nat} {s : Stream} (hs : s.tokens.length < fuel) :
    Agrees topLevel (Parser.topLevel fuel) s := by
  have hstatement : Agrees statement (Parser.statement fuel) s :=
    .current (.ite (fun _ => functionDef_agrees hs) fun _ => expression_agrees 0 hs)
  exact hstatement.bind fun node t _ _ => (Agrees.endOfStatement _).bind fun _ _ _ _ => .pure node

/-! ## The end -/

theorem turn_ok {s t : Stream} {node : Node} (h : Settles (topLevel · s) (.ok node, t)) :
    Settles (turn · s) (.ok node, t.skipSeparators) :=
  h.bind (.const _)

theorem turn_error {s t : Stream} {e : ParseError} (h : Settles (topLevel · s) (.error e, t)) :
    Settles (turn · s) (.error e, t.skipStatement.skipSeparators) :=
  h.bind (.const _)

theorem collect_end {s : Stream} (hs : s.tokens = []) : Settles (collect · s) ([], []) := by
  refine .succ ?_
  simp only [collect, hs]
  exact .const _

theorem collect_turn (depth : Nat) {s : Stream} (hs : s.tokens ≠ []) :
    collect (depth + 1) s = (turn depth s).bind fun (result, t) =>
      (collect depth t).bind fun (nodes, errors) =>
        match result with
        | .ok node => some (node :: nodes, errors)
        | .error e => some (nodes, e :: errors) := by
  rewrite [collect, if_neg (by simpa using hs)]
  rfl

theorem collect_ok {s t : Stream} {node : Node} {r : List Node × List ParseError}
    (hs : s.tokens ≠ []) (h : Settles (turn · s) (.ok node, t)) (hr : Settles (collect · t) r) :
    Settles (collect · s) (node :: r.1, r.2) := by
  refine .succ ?_
  simp only [collect_turn _ hs]
  exact h.bind (hr.bind (.const _))

theorem collect_error {s t : Stream} {e : ParseError} {r : List Node × List ParseError}
    (hs : s.tokens ≠ []) (h : Settles (turn · s) (.error e, t)) (hr : Settles (collect · t) r) :
    Settles (collect · s) (r.1, e :: r.2) := by
  refine .succ ?_
  simp only [collect_turn _ hs]
  exact h.bind (hr.bind (.const _))

theorem collect_agrees {fuel turns : Nat} {s : Stream} (hs : s.skipSeparators.tokens.length < fuel)
    (hturns : s.skipSeparators.tokens.length ≤ turns) :
    Settles (collect · s.skipSeparators) (Parser.collect fuel turns s.skipSeparators) := by
  induction turns generalizing s with
  | zero =>
      have hend := List.length_eq_zero_iff.mp (Nat.le_zero.mp hturns)
      rw [Parser.collect_end fuel 0 hend]
      exact collect_end hend
  | succ turns ih =>
      by_cases hend : s.skipSeparators.tokens = []
      · rw [Parser.collect_end _ _ hend]
        exact collect_end hend
      · have hagrees := topLevel_agrees hs
        rcases hr : Parser.topLevel fuel s.skipSeparators with ⟨e | node, t⟩
        · obtain ⟨hrest, hsame⟩ := hagrees.run hr
          have hlt := Parser.skipStatement_length_lt hrest hend
          have hle := t.skipStatement.skipSeparators_rest.length_le
          rw [Parser.collect_error turns hend hr]
          exact collect_error hend (turn_error hsame) (ih (by omega) (by omega))
        · obtain ⟨-, hsame⟩ := hagrees.run hr
          have hlt := Parser.topLevel_length_lt hs hr
          have hle := t.skipSeparators_rest.length_le
          rw [Parser.collect_ok turns hend hr]
          exact collect_ok hend (turn_ok hsame) (ih (by omega) (by omega))

/-- Parsing always ends. -/
theorem parse_ends (source : String) : Settles (parse · source) (Fragment.parse source) := by
  have hle := (Stream.ofSource source).skipSeparators_rest.length_le
  unfold parse Fragment.parse
  cases Token.lexErrors source with
  | nil => exact (collect_agrees (Nat.lt_succ_of_le hle) hle).map
  | cons e es => exact .const _

end Nesting

end ScalarLang
