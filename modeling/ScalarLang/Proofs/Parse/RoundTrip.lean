import Mathlib
import ScalarLang.Proofs.Parse.Derivations
import ScalarLang.Proofs.Parse.Printer

/-
  Reading undoes writing.
  A parser of expressions reads what was written of an expression if what follows is neither an
  opening parenthesis nor an operator that could take the expression as its operand. The
  expression is read as an operand that is extended by operators, and the lemmas say how far the
  loop over these operators has come when all of it has been read: with a binary expression on its
  left, the loop goes on as if that expression had been one operand.
-/

namespace ScalarLang

namespace Stream

/-- From the one stream to the other stand tokens for the lexemes. -/
def Covers (ls : List Lexeme) (s s' : Stream) : Prop :=
  ∃ ts : List Token, ts.map Token.erase = ls ∧ s = ⟨ts ++ s'.tokens, s'.size⟩

namespace Covers

variable {l : Lexeme} {ls ls' : List Lexeme} {s s' : Stream}

theorem nil (h : Covers [] s s') : s = s' := by
  obtain ⟨ts, hts, rfl⟩ := h
  obtain rfl := List.map_eq_nil_iff.mp hts
  rfl

theorem append (h : Covers (ls ++ ls') s s') : ∃ m, Covers ls s m ∧ Covers ls' m s' := by
  obtain ⟨ts, hts, rfl⟩ := h
  obtain ⟨us, vs, rfl, hus, hvs⟩ := List.map_eq_append_iff.mp hts
  exact ⟨⟨vs ++ s'.tokens, s'.size⟩, ⟨us, hus, by rw [List.append_assoc]⟩, vs, hvs, rfl⟩

/-- The first token, and the others. -/
theorem cons (h : Covers (l :: ls) s s') : s.current.erase = l ∧ Covers ls s.advance s' ∧
    s.advance.tokens.length + 1 = s.tokens.length := by
  obtain ⟨ts, hts, rfl⟩ := h
  obtain ⟨t, ts, rfl, ht, hts⟩ := List.map_eq_cons_iff.mp hts
  exact ⟨ht, ⟨ts, hts, rfl⟩, rfl⟩

theorem single (h : Covers [l] s s') : s.current.erase = l ∧ s.advance = s' ∧
    s'.tokens.length + 1 = s.tokens.length := by
  obtain ⟨hl, hnil, hlen⟩ := h.cons
  obtain rfl := hnil.nil
  exact ⟨hl, rfl, hlen⟩

theorem length_le (h : Covers ls s s') : s'.tokens.length ≤ s.tokens.length := by
  obtain ⟨ts, _, rfl⟩ := h
  exact length_le_of_append rfl

theorem length_lt (h : Covers ls s s') (hls : ls ≠ []) : s'.tokens.length < s.tokens.length := by
  obtain ⟨l, rest, rfl⟩ := List.exists_cons_of_ne_nil hls
  obtain ⟨_, hrest, hlen⟩ := h.cons
  have hle := hrest.length_le
  omega

/-- What is written of an expression starts as an expression may. -/
theorem head (h : Covers ls s s') (hls : Lexeme.Headed ls) :
    s.current.kind.opens = true ∧ s.current.kind ≠ .defWord := by
  obtain ⟨l, rest, rfl, hstarts⟩ := hls
  obtain ⟨rfl, _⟩ := h.cons
  exact ⟨hstarts.1, hstarts.2.1⟩

/-- Separators are skipped where something else follows. -/
theorem skipSeparators (h : Covers ls s s') (hls : Lexeme.Separators ls)
    (hs' : s'.current.kind.isSeparator = false) : s.skipSeparators = s' := by
  obtain ⟨ts, hts, rfl⟩ := h
  subst hts
  have hsep : ∀ t ∈ ts, t.kind.isSeparator = true := by
    intro t ht
    have hkind : t.kind = t.erase.kind := rfl
    rcases hls t.erase (List.mem_map_of_mem ht) with h | h <;> rw [hkind, h] <;> rfl
  have hrest : s'.tokens.dropWhile (·.kind.isSeparator) = s'.tokens := by
    cases htokens : s'.tokens with
    | nil => rfl
    | cons t rest =>
        rw [current, htokens] at hs'
        exact List.dropWhile_cons_of_neg (by simpa using hs')
  show (⟨_, _⟩ : Stream) = s'
  rw [List.dropWhile_append_of_pos hsep, hrest]

end Covers

end Stream

open ScalarLang.Stream (Covers)
open Lexeme (Headed)

namespace Parser

variable {α β : Type}

theorem bind_ok {x : Parser α} {f : α → Parser β} {s s' : Stream} {a : α}
    (h : x s = (.ok a, s')) : (x >>= f) s = f a s' := by
  rw [bind_apply, h]

theorem current_bind (f : Token → Parser β) (s : Stream) :
    (current >>= f) s = f s.current s := rfl

theorem advance_bind (f : Unit → Parser β) (s : Stream) :
    (advance >>= f) s = f () s.advance := rfl

theorem skipSeparators_bind (f : Unit → Parser β) (s : Stream) :
    (skipSeparators >>= f) s = f () s.skipSeparators := rfl

theorem expect_ok {kind : TokenKind} {s : Stream} (h : s.current.kind = kind) :
    expect kind s = (.ok s.current, s.advance) := by
  rw [expect, current_bind, if_pos h]
  rfl

theorem expectIdent_ok {s : Stream} (h : s.current.kind = .ident) :
    expectIdent s = (.ok ⟨s.current.lexeme, s.current.span⟩, s.advance) := by
  rw [expectIdent, current_bind, if_pos h]
  rfl

theorem endOfStatement_ok {closer : TokenKind} {s : Stream}
    (h : s.current.kind.isSeparator = true ∨ s.current.kind = closer) :
    endOfStatement closer s = (.ok (), s) := by
  rw [endOfStatement, current_bind, if_pos (by simpa using h)]
  rfl

theorem climb_stops {expr : Nat → Parser Node} {level : Nat} (count : Nat) (node : Node)
    {s : Stream} (h : Stops level s) : climb expr level count node s = (.ok node, s) := by
  cases count with
  | zero => rfl
  | succ count =>
      cases hop : s.current.kind.binaryOp? with
      | none =>
          simp only [climb, current_bind, hop]
          rfl
      | some op =>
          simp only [climb, current_bind, hop, if_pos (h op hop)]
          rfl

theorem operand_eq_primary {expr : Parser Node} {s : Stream} (h : s.current.kind ≠ .minus)
    (count : Nat) : operand expr (count + 1) s = primary expr (count + 1) s := by
  rw [operand, current_bind, if_neg h]

/-- What starts with no literal is read by the kind of the first token. -/
theorem primary_of_not_literal {expr : Parser Node} {s : Stream}
    (h : s.current.kind.isLiteral = false) (count : Nat) :
    primary expr count s = (match s.current.kind with
      | .ident => nameOrCall (arguments expr count)
      | .lParen => parenthesized expr
      | .ifWord => conditional expr .ifForm
      | .whenWord => conditional expr .whenForm
      | .defWord => fail .nestedFunction s.current.span
      | _ => fail .expectedExpression s.current.span) s := by
  have hliteral : s.current.literal? = none := by
    cases hr : s.current.literal? with
    | none => rfl
    | some r =>
        rw [Token.literal_isLiteral hr] at h
        cases h
  rewrite [primary, current_bind, hliteral]
  rfl

/-! ## Operands and levels -/

/-- At the one stream the parser gives the node, up to spans, and leaves the other. -/
def Gives (x : Parser Node) (node : Node) (s s' : Stream) : Prop :=
  ∃ node', node'.erase = node.erase ∧ x s = (.ok node', s')

/-- What follows makes no call of a name and has no operator of the level. -/
def Ends (level : Nat) (s : Stream) : Prop := s.current.kind ≠ .lParen ∧ Stops level s

theorem Ends.mono {level level' : Nat} {s : Stream} (h : Ends level s) (hle : level ≤ level') :
    Ends level' s :=
  ⟨h.1, fun op hop => (h.2 op hop).trans_le hle⟩

/-- No expression goes on after such a token. -/
theorem Ends.of_kind {s : Stream} (hparen : s.current.kind ≠ .lParen)
    (hop : s.current.kind.binaryOp? = none) (level : Nat) : Ends level s :=
  ⟨hparen, fun _ h => nomatch hop.symm.trans h⟩

/-- The lexemes are read as an operand. -/
def Operates (ls : List Lexeme) (node : Node) : Prop :=
  ∀ (fuel count : Nat) (s s' : Stream), Covers ls s s' → s'.current.kind ≠ .lParen →
    s.tokens.length ≤ fuel → s.tokens.length < count →
    Gives (operand (expression fuel 0) count) node s s'

/-- After the lexemes the loop over operators of a level up to `k` has come to the node. -/
def Climbs (ls : List Lexeme) (node : Node) (k : Nat) : Prop :=
  ∀ (fuel level count : Nat) (s s' : Stream), level ≤ k → Covers ls s s' → Ends (k + 1) s' →
    s.tokens.length ≤ fuel → s.tokens.length < count →
    ∃ node' count', node'.erase = node.erase ∧ s'.tokens.length < count' ∧
      (operand (expression fuel 0) (fuel + 1) >>= climb (expression fuel) level count) s =
        climb (expression fuel) level count' node' s'

theorem Operates.climbs {ls : List Lexeme} {node : Node} (h : Operates ls node) (k : Nat) :
    Climbs ls node k := by
  intro fuel level count s s' _ hs hends hfuel hcount
  obtain ⟨node', herase, hread⟩ := h fuel (fuel + 1) s s' hs hends.1 hfuel (by omega)
  exact ⟨node', count, herase, hs.length_le.trans_lt hcount, bind_ok hread⟩

namespace Climbs

variable {ls : List Lexeme} {node : Node} {k : Nat}

theorem mono (h : Climbs ls node k) {k' : Nat} (hle : k' ≤ k) : Climbs ls node k' :=
  fun fuel level count s s' hlevel hs hends =>
    h fuel level count s s' (hlevel.trans hle) hs (hends.mono (by omega))

theorem expression (h : Climbs ls node k) {fuel level : Nat} {s s' : Stream} (hlevel : level ≤ k)
    (hs : Covers ls s s') (hends : Ends level s') (hfuel : s.tokens.length < fuel) :
    Gives (expression fuel level) node s s' := by
  obtain ⟨fuel, rfl⟩ := Nat.exists_eq_succ_of_ne_zero (Nat.ne_zero_of_lt hfuel)
  obtain ⟨node', count', herase, _, hclimb⟩ := h fuel level (fuel + 1) s s' hlevel hs
    (hends.mono (by omega)) (by omega) hfuel
  refine ⟨node', herase, ?_⟩
  rw [Parser.expression, hclimb, climb_stops count' node' hends.2]

/-- In parentheses an expression is an operand, whatever follows. -/
theorem parenthesized (h : Climbs ls node k) {fuel count : Nat} {s s' : Stream}
    (hs : Covers (parenthesize ls) s s') (hfuel : s.tokens.length ≤ fuel) (hcount : 0 < count) :
    Gives (operand (Parser.expression fuel 0) count) node s s' := by
  obtain ⟨count, rfl⟩ := Nat.exists_eq_succ_of_ne_zero hcount.ne'
  obtain ⟨s₁, hfirst, hlast⟩ := hs.append
  obtain ⟨hopening, hinner, hlen⟩ := hfirst.cons
  obtain ⟨hclosing, hleft, _⟩ := hlast.single
  replace hopening : s.current.kind = .lParen := congrArg Lexeme.kind hopening
  replace hclosing : s₁.current.kind = .rParen := congrArg Lexeme.kind hclosing
  have hends : Ends 0 s₁ := .of_kind (by simp [hclosing]) (by rw [hclosing]; rfl) 0
  obtain ⟨node', herase, hread⟩ : Gives (Parser.expression fuel 0) node s.advance s₁ :=
    h.expression (Nat.zero_le k) hinner hends (by omega)
  refine ⟨node', herase, ?_⟩
  rw [operand_eq_primary (by simp [hopening]), primary_of_not_literal (by rw [hopening]; rfl)]
  simp only [hopening]
  rw [Parser.parenthesized, advance_bind, bind_ok hread, bind_ok (expect_ok hclosing), hleft]
  rfl

theorem operates (h : Climbs ls node k) : Operates (parenthesize ls) node :=
  fun _ _ _ _ hs _ hfuel hcount => h.parenthesized hs hfuel (Nat.zero_lt_of_lt hcount)

/-- In parentheses an expression stands wherever no operator of the level follows. -/
theorem expression_parenthesized (h : Climbs ls node k) {fuel level : Nat} {s s' : Stream}
    (hs : Covers (parenthesize ls) s s') (hstops : Stops level s')
    (hfuel : s.tokens.length < fuel) : Gives (Parser.expression fuel level) node s s' := by
  obtain ⟨fuel, rfl⟩ := Nat.exists_eq_succ_of_ne_zero (Nat.ne_zero_of_lt hfuel)
  obtain ⟨node', herase, hread⟩ : Gives (operand (Parser.expression fuel 0) (fuel + 1)) node s s' :=
    h.parenthesized hs (by omega) (by omega)
  refine ⟨node', herase, ?_⟩
  rw [Parser.expression, bind_ok hread, climb_stops _ node' hstops]

/-- The loop takes the operator and its right operand, and goes on. -/
theorem binary {op : BinaryOp} {lhs rhs : Node} {left right : List Lexeme}
    (hlhs : Climbs left lhs op.precedence) (hrhs : Climbs right rhs (op.precedence + 1))
    (span : Span) :
    Climbs (left ++ [op.lexeme] ++ right) (.binary span op lhs rhs) op.precedence := by
  intro fuel level count s s' hlevel hs hends hfuel hcount
  obtain ⟨s₂, hfront, hright⟩ := hs.append
  obtain ⟨s₁, hleft, hsign⟩ := hfront.append
  obtain ⟨herase, hnext, hlen⟩ := hsign.single
  have hkind : s₁.current.kind = op.kind := congrArg Lexeme.kind herase
  have hop : s₁.current.kind.binaryOp? = some op := by rw [hkind, op.binaryOp?_kind]
  have hends₁ : Ends (op.precedence + 1) s₁ := by
    refine ⟨by rw [hkind]; cases op <;> exact TokenKind.noConfusion, fun op' hop' => ?_⟩
    obtain rfl : op = op' := Option.some.inj (hop.symm.trans hop')
    exact Nat.lt_succ_self _
  have hlen₁ := hleft.length_le
  have hlen₂ := hright.length_le
  obtain ⟨lhs', count', hlhs', hcount', hclimb⟩ :=
    hlhs fuel level count s s₁ hlevel hleft hends₁ hfuel hcount
  obtain ⟨rhs', hrhs', hread⟩ : Gives (Parser.expression fuel (op.precedence + 1)) rhs s₂ s' :=
    hrhs.expression (Nat.le_refl _) hright hends (by omega)
  obtain ⟨count', rfl⟩ := Nat.exists_eq_succ_of_ne_zero (Nat.ne_zero_of_lt hcount')
  refine ⟨.binary (lhs'.span.hull rhs'.span) op lhs' rhs', count', ?_, by omega, ?_⟩
  · rw [Node.erase, Node.erase, hlhs', hrhs']
  · rw [hclimb]
    simp only [climb, current_bind, hop, if_neg (Nat.not_lt.mpr hlevel)]
    rw [advance_bind, hnext, bind_ok hread]

/-- A conditional takes all that its second arm takes, so no operator may follow. -/
theorem conditional {test thenArm elseArm : Node} {lt la lb : List Lexeme} {kt ka kb : Nat}
    (htest : Climbs lt test kt) (hthen : Climbs la thenArm ka) (helse : Climbs lb elseArm kb)
    (span : Span) (form : ConditionalForm) :
    Climbs ([form.lexeme] ++ parenthesize lt ++ parenthesize la ++ [.elseWord] ++ lb)
      (.conditional span form test thenArm elseArm) 0 := by
  intro fuel level count s s' _ hs hends hfuel hcount
  obtain ⟨s₃, hfront, helseArm⟩ := hs.append
  obtain ⟨s₂, hfront, hmid⟩ := hfront.append
  obtain ⟨s₁, hfront, hthenArm⟩ := hfront.append
  obtain ⟨hword, htestArm, hlen⟩ := hfront.cons
  obtain ⟨hmid, hnext, hlen₂⟩ := hmid.single
  replace hword : s.current.kind = form.kind := congrArg Lexeme.kind hword
  replace hmid : s₂.current.kind = .elseWord := congrArg Lexeme.kind hmid
  have hlen₁ := htestArm.length_le
  have hlen₃ := hthenArm.length_le
  have hlen₄ := helseArm.length_le
  -- What follows the test is the parenthesis before the first arm.
  obtain ⟨hopening, _⟩ := hthenArm.cons
  replace hopening : s₁.current.kind = .lParen := congrArg Lexeme.kind hopening
  have hstops₁ : Stops 0 s₁ := fun op hop => by rw [hopening] at hop; cases hop
  have hstops₂ : Stops 0 s₂ := fun op hop => by rw [hmid] at hop; cases hop
  have hends₃ : Ends 0 s' := ⟨hends.1, fun op hop => by
    have := hends.2 op hop
    have := op.precedence_pos
    omega⟩
  obtain ⟨test', htest', hread₁⟩ : Gives (Parser.expression fuel 0) test s.advance s₁ :=
    htest.expression_parenthesized htestArm hstops₁ (by omega)
  obtain ⟨then', hthen', hread₂⟩ : Gives (Parser.expression fuel 0) thenArm s₁ s₂ :=
    hthen.expression_parenthesized hthenArm hstops₂ (by omega)
  obtain ⟨else', helse', hread₃⟩ : Gives (Parser.expression fuel 0) elseArm s₃ s' :=
    helse.expression (Nat.zero_le _) helseArm hends₃ (by omega)
  refine ⟨.conditional (s.current.span.hull else'.span) form test' then' else', count, ?_,
    by omega, bind_ok ?_⟩
  · simp only [Node.erase, htest', hthen', helse']
  · have hconditional : Parser.conditional (Parser.expression fuel 0) form s =
        (.ok (.conditional (s.current.span.hull else'.span) form test' then' else'), s') := by
      rw [Parser.conditional, current_bind, advance_bind, bind_ok hread₁, bind_ok hread₂,
        current_bind, if_pos hmid, advance_bind, hnext, bind_ok hread₃]
      rfl
    rw [operand_eq_primary (by rw [hword]; cases form <;> exact TokenKind.noConfusion),
      primary_of_not_literal (by rw [hword]; cases form <;> rfl)]
    cases form with
    | ifForm =>
        simp only [hword, ConditionalForm.kind]
        exact hconditional
    | whenForm =>
        simp only [hword, ConditionalForm.kind]
        exact hconditional

end Climbs

namespace Operates

theorem literal {value : Literal} {l : Lexeme} (h : value.SpelledBy l) (span : Span) :
    Operates ((if value = .least then [.minus] else []) ++ [l]) (.literal span value) := by
  intro fuel count s s' hs _ _ hcount
  obtain ⟨count, rfl⟩ := Nat.exists_eq_succ_of_ne_zero (Nat.ne_zero_of_lt hcount)
  obtain ⟨_, h⟩ := h
  split at h
  · rename_i hleast
    obtain ⟨hint, hmagnitude⟩ := h
    rw [if_pos hleast] at hs
    obtain ⟨hminus, hrest, _⟩ := hs.cons
    obtain ⟨hnumber, hnext, _⟩ := hrest.single
    replace hminus : s.current.kind = .minus := congrArg Lexeme.kind hminus
    have hkind : s.advance.current.kind = .int := (congrArg Lexeme.kind hnumber).trans hint
    have htext : s.advance.current.lexeme = l.text := congrArg Lexeme.text hnumber
    refine ⟨.literal (s.current.span.hull s.advance.current.span) .least, ?_, ?_⟩
    · rw [Node.erase, Node.erase, hleast]
    · rw [operand, current_bind, if_pos hminus, advance_bind, current_bind,
        if_pos (by simp [hkind, htext, hmagnitude]), advance_bind, hnext]
      rfl
  · rename_i hleast
    rw [if_neg hleast] at hs
    obtain ⟨hl, hnext, _⟩ := hs.single
    have hliteral : s.current.literal? = some (.ok value) := by
      rw [← hl] at h
      exact h
    refine ⟨.literal s.current.span value, by rw [Node.erase, Node.erase], ?_⟩
    have hsign : s.current.kind ≠ .minus := fun hminus => by
      have hkind := Token.literal_isLiteral hliteral
      rw [hminus] at hkind
      cases hkind
    rw [operand_eq_primary hsign, primary, current_bind, hliteral, ← hnext]
    rfl

theorem name (text : String) (span : Span) : Operates [.word text] (.name span text) := by
  intro fuel count s s' hs hparen _ hcount
  obtain ⟨count, rfl⟩ := Nat.exists_eq_succ_of_ne_zero (Nat.ne_zero_of_lt hcount)
  obtain ⟨hword, hnext, _⟩ := hs.single
  have hkind : s.current.kind = .ident := congrArg Lexeme.kind hword
  have htext : s.current.lexeme = text := congrArg Lexeme.text hword
  refine ⟨.name s.current.span text, by rw [Node.erase, Node.erase], ?_⟩
  rw [operand_eq_primary (by simp [hkind]), primary_of_not_literal (by rw [hkind]; rfl)]
  simp only [hkind]
  rw [nameOrCall, bind_ok (expectIdent_ok hkind), hnext, current_bind, if_neg hparen, htext]
  rfl

theorem negate {ls : List Lexeme} {operand : Node} (h : Operates ls operand) (hhead : Headed ls)
    (span : Span) : Operates ([.minus] ++ ls) (.negate span operand) := by
  intro fuel count s s' hs hparen hfuel hcount
  obtain ⟨count, rfl⟩ := Nat.exists_eq_succ_of_ne_zero (Nat.ne_zero_of_lt hcount)
  obtain ⟨hminus, hrest, hlen⟩ := hs.cons
  replace hminus : s.current.kind = .minus := congrArg Lexeme.kind hminus
  obtain ⟨operand', herase, hread⟩ :=
    h fuel count s.advance s' hrest hparen (by omega) (by omega)
  obtain ⟨l, rest, rfl, hstarts⟩ := hhead
  obtain ⟨hl, _⟩ := hrest.cons
  -- The minus makes no literal of what it stands before.
  have hnumber : ¬ (decide (s.advance.current.kind = .int) &&
      NumberToken.isMinMagnitude s.advance.current.lexeme) = true := by
    subst hl
    rw [Bool.and_eq_true, decide_eq_true_eq]
    rintro ⟨hint, hmagnitude⟩
    exact nomatch (hstarts.2.2 hint).symm.trans hmagnitude
  refine ⟨.negate (s.current.span.hull operand'.span) operand', ?_, ?_⟩
  · rw [Node.erase, Node.erase, herase]
  rw [Parser.operand, current_bind, if_pos hminus, advance_bind, current_bind, if_neg hnumber,
    bind_ok hread]
  rfl

end Operates

section Spelling

variable {spell : Span → Literal → Lexeme}

/-- As it is written, the node is read as an expression and starts as one. -/
def IsExpression (spell : Span → Literal → Lexeme) (arg : Node) : Prop :=
  Climbs (arg.lexemes spell) arg arg.tightness ∧ Headed (arg.lexemes spell)

/-- A list does not end where something starts. -/
theorem not_closed_of_opens {kind closer : TokenKind} (h : kind.opens = true)
    (hcloser : closer.opens = false) :
    ¬ (decide (kind = closer) || decide (kind = .eof)) = true := by
  rw [Bool.or_eq_true, decide_eq_true_eq, decide_eq_true_eq]
  rintro (rfl | rfl)
  · rw [h] at hcloser
    cases hcloser
  · cases h

theorem arguments_gives : ∀ args : List Node, (∀ arg ∈ args, IsExpression spell arg) →
    ∀ (fuel count : Nat) (s s' : Stream), Covers (Node.listLexemes spell args) s s' →
    s'.current.kind = .rParen → s.tokens.length < fuel → s.tokens.length < count →
    ∃ args', Node.eraseAll args' = Node.eraseAll args ∧
      arguments (expression fuel 0) count s = (.ok args', s')
  | [], _, fuel, count, s, s', hs, hclosing, _, hcount => by
      obtain ⟨count, rfl⟩ := Nat.exists_eq_succ_of_ne_zero (Nat.ne_zero_of_lt hcount)
      rw [Node.listLexemes] at hs
      obtain rfl := hs.nil
      refine ⟨[], rfl, ?_⟩
      rw [arguments, current_bind, if_pos (by simp [hclosing])]
      rfl
  | [arg], hargs, fuel, count, s, s', hs, hclosing, hfuel, hcount => by
      obtain ⟨count, rfl⟩ := Nat.exists_eq_succ_of_ne_zero (Nat.ne_zero_of_lt hcount)
      obtain ⟨harg, hhead⟩ := hargs arg (List.mem_singleton_self arg)
      rw [Node.listLexemes] at hs
      have hends : Ends 0 s' := .of_kind (by simp [hclosing]) (by rw [hclosing]; rfl) 0
      obtain ⟨arg', herase, hread⟩ : Gives (expression fuel 0) arg s s' :=
        harg.expression (Nat.zero_le _) hs hends hfuel
      refine ⟨[arg'], by simp only [Node.eraseAll, herase], ?_⟩
      have hopens := not_closed_of_opens (hs.head hhead).1 (rfl : TokenKind.rParen.opens = false)
      rw [arguments, current_bind, if_neg hopens, bind_ok hread, current_bind,
        if_neg (by simp [hclosing])]
      rfl
  | arg :: next :: rest, hargs, fuel, count, s, s', hs, hclosing, hfuel, hcount => by
      obtain ⟨count, rfl⟩ := Nat.exists_eq_succ_of_ne_zero (Nat.ne_zero_of_lt hcount)
      obtain ⟨⟨harg, hhead⟩, hrest⟩ := List.forall_mem_cons.mp hargs
      rw [Node.listLexemes] at hs
      obtain ⟨s₂, hfront, hback⟩ := hs.append
      obtain ⟨s₁, hfirst, hcomma⟩ := hfront.append
      obtain ⟨hcomma, hnext, hlen⟩ := hcomma.single
      replace hcomma : s₁.current.kind = .comma := congrArg Lexeme.kind hcomma
      have hlen₁ := hfirst.length_le
      have hends : Ends 0 s₁ := .of_kind (by simp [hcomma]) (by rw [hcomma]; rfl) 0
      obtain ⟨arg', herase, hread⟩ : Gives (expression fuel 0) arg s s₁ :=
        harg.expression (Nat.zero_le _) hfirst hends hfuel
      obtain ⟨rest', herase', hread'⟩ :=
        arguments_gives (next :: rest) hrest fuel count s₂ s' hback hclosing (by omega) (by omega)
      refine ⟨arg' :: rest', by rw [Node.eraseAll, Node.eraseAll, herase, herase'], ?_⟩
      have hstart := (hfirst.head hhead).1
      have hopens := not_closed_of_opens hstart (rfl : TokenKind.rParen.opens = false)
      rw [arguments, current_bind, if_neg hopens, bind_ok hread, current_bind, if_pos hcomma,
        advance_bind, hnext, bind_ok hread']
      rfl

theorem Operates.call {args : List Node} (hargs : ∀ arg ∈ args, IsExpression spell arg)
    (span : Span) (callee : Ident) :
    Operates ([.word callee.text, .opening] ++ Node.listLexemes spell args ++ [.closing])
      (.call span callee args) := by
  intro fuel count s s' hs _ hfuel hcount
  obtain ⟨count, rfl⟩ := Nat.exists_eq_succ_of_ne_zero (Nat.ne_zero_of_lt hcount)
  obtain ⟨s₂, hfront, hlast⟩ := hs.append
  obtain ⟨hword, hfront, hlen⟩ := hfront.cons
  obtain ⟨hopening, hlist, hlen₁⟩ := hfront.cons
  obtain ⟨hclosing, hnext, _⟩ := hlast.single
  have hkind : s.current.kind = .ident := congrArg Lexeme.kind hword
  have htext : s.current.lexeme = callee.text := congrArg Lexeme.text hword
  replace hopening : s.advance.current.kind = .lParen := congrArg Lexeme.kind hopening
  replace hclosing : s₂.current.kind = .rParen := congrArg Lexeme.kind hclosing
  obtain ⟨args', herase, hread⟩ := arguments_gives args hargs fuel (count + 1) s.advance.advance s₂
    hlist hclosing (by omega) (by omega)
  refine ⟨.call (s.current.span.hull s₂.current.span) ⟨callee.text, s.current.span⟩ args', ?_, ?_⟩
  · rw [Node.erase, Node.erase, herase]
  · rw [operand_eq_primary (by simp [hkind]), primary_of_not_literal (by rw [hkind]; rfl)]
    simp only [hkind]
    rw [nameOrCall, bind_ok (expectIdent_ok hkind), current_bind, if_pos hopening, advance_bind,
      bind_ok hread, bind_ok (expect_ok hclosing), hnext, htext]
    rfl

/-! ## Expressions -/

/-- As it is written, the expression is read, and as an operand if it binds as tightly as one. -/
def Readable (spell : Span → Literal → Lexeme) (node : Node) : Prop :=
  Climbs (node.lexemes spell) node node.tightness ∧
    (node.tightness = 8 → Operates (node.lexemes spell) node)

theorem Readable.of_operates {node : Node} (h : Operates (node.lexemes spell) node) :
    Readable spell node :=
  ⟨h.climbs _, fun _ => h⟩

/-- At a place of any level. -/
theorem Readable.climbs_enclose {node : Node} (h : Readable spell node) (level : Nat) :
    Climbs (enclose node.tightness level (node.lexemes spell)) node level := by
  unfold enclose
  split
  · exact h.1.operates.climbs level
  · rename_i htight
    exact h.1.mono (Nat.not_lt.mp htight)

/-- At a place for an operand. -/
theorem Readable.operates_enclose {node : Node} (h : Readable spell node) :
    Operates (enclose node.tightness 8 (node.lexemes spell)) node := by
  unfold enclose
  split
  · exact h.1.operates
  · rename_i htight
    exact h.2 (Nat.le_antisymm node.tightness_le (Nat.not_lt.mp htight))

mutual

theorem readable : ∀ node : Node, node.Writable spell → Readable spell node
  | .literal span value, h => by
      refine .of_operates ?_
      rw [Node.lexemes]
      exact .literal h span
  | .name span text, _ => by
      refine .of_operates ?_
      rw [Node.lexemes]
      exact .name text span
  | .binary span op lhs rhs, h => by
      have hlhs := (readable lhs h.1).climbs_enclose op.precedence
      have hrhs := (readable rhs h.2).climbs_enclose (op.precedence + 1)
      refine ⟨?_, fun htight => ?_⟩
      · rw [Node.lexemes]
        exact hlhs.binary hrhs span
      · have hle := op.precedence_le
        rw [Node.tightness] at htight
        omega
  | .negate span operand, h => by
      refine .of_operates ?_
      rw [Node.lexemes]
      exact (readable operand h).operates_enclose.negate
        (headed_enclose (operand.headed_lexemes h) _ _) span
  | .conditional span form test thenArm elseArm, h => by
      refine ⟨?_, fun htight => nomatch htight⟩
      rw [Node.lexemes]
      exact .conditional (readable test h.1).1 (readable thenArm h.2.1).1 (readable elseArm h.2.2).1
        span form
  | .call span callee args, h => by
      refine .of_operates ?_
      rw [Node.lexemes]
      exact .call (areExpressions args h.2) span callee
  | .function _ _ _ _, h => h.elim

theorem areExpressions : ∀ args : List Node, Node.AllWritable spell args →
    ∀ arg ∈ args, IsExpression spell arg
  | [], _ => by simp
  | arg :: rest, h => by
      refine List.forall_mem_cons.mpr ⟨⟨(readable arg h.1).1, arg.headed_lexemes h.1⟩, ?_⟩
      exact areExpressions rest h.2

end

/-! ## Statements -/

theorem Ends.of_closed {closer : TokenKind} {s : Stream}
    (h : s.current.kind.isSeparator = true ∨ s.current.kind = closer)
    (hparen : closer ≠ .lParen) (hop : closer.binaryOp? = none) (level : Nat) : Ends level s := by
  rcases h with h | h
  · refine .of_kind (fun hk => ?_) ?_ level
    · rw [hk] at h
      cases h
    · revert h
      cases s.current.kind <;> decide
  · exact .of_kind (h ▸ hparen) (h ▸ hop) level

/-- What is written starts as a statement may. -/
def Opens (writes : Node → List Lexeme → Prop) (node : Node) : Prop :=
  ∀ ls, writes node ls → ∃ l rest, ls = l :: rest ∧ l.kind.opens = true

theorem IsExpression.opens {node : Node} (h : IsExpression spell node) :
    Opens (fun node ls => ls = node.lexemes spell) node := by
  rintro _ rfl
  obtain ⟨l, rest, hls, hl⟩ := h.2
  exact ⟨l, rest, hls, hl.1⟩

/-- Statements do not start with a separator. -/
theorem start_of_lines {writes : Node → List Lexeme → Prop} {nodes : List Node}
    {ls : List Lexeme} {s s' : Stream} (h : Lines writes nodes ls)
    (hopens : ∀ node ∈ nodes, Opens writes node) (hs : Covers ls s s')
    (hs' : s'.current.kind.isSeparator = false) : s.current.kind.isSeparator = false := by
  cases h with
  | done =>
      obtain rfl := hs.nil
      exact hs'
  | line hfirst =>
      obtain ⟨l, rest, rfl, hl⟩ := hopens _ List.mem_cons_self _ hfirst
      obtain ⟨rfl, _⟩ := hs.cons
      have hkind : s.current.kind.opens = true := hl
      revert hkind
      cases s.current.kind <;> decide

/-- The first of several statements, the separators after it, and the others. -/
theorem split_lines {writes : Node → List Lexeme → Prop} {node : Node} {nodes : List Node}
    {ls : List Lexeme} {s s' : Stream} (h : Lines writes (node :: nodes) ls)
    (hopens : ∀ node ∈ nodes, Opens writes node) (hs : Covers ls s s')
    (hs' : s'.current.kind.isSeparator = false) :
    ∃ first rest m, writes node first ∧ Covers first s m ∧
      (m.current.kind.isSeparator = true ∨ m.current.kind = s'.current.kind) ∧
      Lines writes nodes rest ∧ Covers rest m.skipSeparators s' := by
  cases h with
  | line hfirst hseps hends hrest =>
      rename_i first seps rest
      obtain ⟨s₂, hfront, hback⟩ := hs.append
      obtain ⟨s₁, hfront, hmid⟩ := hfront.append
      have hstart := start_of_lines hrest hopens hback hs'
      refine ⟨first, rest, s₁, hfirst, hfront, ?_, hrest, ?_⟩
      · cases seps with
        | nil =>
            have hnodes : nodes = [] := Classical.byContradiction fun hne => hends hne rfl
            subst hnodes
            cases hrest
            obtain rfl := hmid.nil
            obtain rfl := hback.nil
            exact .inr rfl
        | cons l seps =>
            obtain ⟨hkind, _⟩ := hmid.cons
            have hl : l.kind.isSeparator = true := by
              rcases hseps l List.mem_cons_self with rfl | rfl <;> rfl
            subst hkind
            exact .inl hl
      · rwa [hmid.skipSeparators hseps hstart]

theorem body_gives {nodes : List Node} (hnodes : ∀ node ∈ nodes, IsExpression spell node)
    {ls : List Lexeme} (h : Lines (fun node ls => ls = node.lexemes spell) nodes ls)
    {fuel count : Nat} {s s' : Stream} (hs : Covers ls s s') (hs' : s'.current.kind = .rBrace)
    (hfuel : s.tokens.length < fuel) (hcount : s.tokens.length < count) :
    ∃ nodes', Node.eraseAll nodes' = Node.eraseAll nodes ∧
      body (expression fuel 0) count s = (.ok nodes', s') := by
  induction nodes generalizing ls count s with
  | nil =>
      obtain ⟨count, rfl⟩ := Nat.exists_eq_succ_of_ne_zero (Nat.ne_zero_of_lt hcount)
      cases h
      obtain rfl := hs.nil
      refine ⟨[], rfl, ?_⟩
      rw [body, current_bind, if_pos (by simp [hs'])]
      rfl
  | cons node nodes ih =>
      obtain ⟨count, rfl⟩ := Nat.exists_eq_succ_of_ne_zero (Nat.ne_zero_of_lt hcount)
      obtain ⟨⟨hnode, hhead⟩, hrest⟩ := List.forall_mem_cons.mp hnodes
      obtain ⟨_, rest, m, rfl, hfirst, hclosed, hlines, hback⟩ :=
        split_lines h (fun n hn => (hrest n hn).opens) hs (by rw [hs']; rfl)
      rw [hs'] at hclosed
      have hends : Ends 0 m := .of_closed hclosed TokenKind.noConfusion rfl 0
      have hlen := hfirst.length_lt (by obtain ⟨l, rest, hls, _⟩ := hhead; simp [hls])
      have hlen' := Stream.length_le_of_append m.separators_append
      obtain ⟨node', herase, hread⟩ : Gives (expression fuel 0) node s m :=
        hnode.expression (Nat.zero_le _) hfirst hends hfuel
      have hcount' : m.skipSeparators.tokens.length < count := by omega
      obtain ⟨nodes', herase', hread'⟩ := ih hrest hlines hback (by omega) hcount'
      obtain ⟨hstart, hdef⟩ := hfirst.head hhead
      refine ⟨node' :: nodes', by rw [Node.eraseAll, Node.eraseAll, herase, herase'], ?_⟩
      have hgoes := not_closed_of_opens hstart (rfl : TokenKind.rBrace.opens = false)
      rw [body, current_bind, if_neg hgoes, if_neg hdef]
      dsimp only
      rw [bind_ok hread, bind_ok (endOfStatement_ok hclosed), skipSeparators_bind, bind_ok hread']
      rfl

theorem functionDef_gives {name : Ident} {nodes : List Node} {block : List Lexeme}
    (hnodes : ∀ node ∈ nodes, IsExpression spell node) (hne : nodes ≠ [])
    (hblock : Enclosed (fun node ls => ls = node.lexemes spell) nodes block) (span : Span)
    {fuel : Nat} {s s' : Stream} (hfuel : s.tokens.length < fuel)
    (hs : Covers ([.defWord, .word name.text, .opening, .closing, .leftBrace] ++ block ++
      [.rightBrace]) s s') :
    Gives (functionDef (expression fuel 0) fuel) (.function span name [] nodes) s s' := by
  obtain ⟨seps, rest, hseps, hlines, rfl⟩ := hblock
  obtain ⟨m, hfront, hlast⟩ := hs.append
  obtain ⟨s₁, hhead, hblock⟩ := hfront.append
  obtain ⟨s₂, hbefore, hbody⟩ := hblock.append
  obtain ⟨hword, hhead, hlen₁⟩ := hhead.cons
  obtain ⟨hname, hhead, hlen₂⟩ := hhead.cons
  obtain ⟨hopening, hhead, hlen₃⟩ := hhead.cons
  obtain ⟨hclosing, hhead, hlen₄⟩ := hhead.cons
  obtain ⟨hleft, hnext, hlen₅⟩ := hhead.single
  obtain ⟨hright, hend, _⟩ := hlast.single
  have hident : s.advance.current.kind = .ident := congrArg Lexeme.kind hname
  have htext : s.advance.current.lexeme = name.text := congrArg Lexeme.text hname
  replace hword : s.current.kind = .defWord := congrArg Lexeme.kind hword
  replace hopening : s.advance.advance.current.kind = .lParen := congrArg Lexeme.kind hopening
  replace hclosing : s.advance.advance.advance.current.kind = .rParen :=
    congrArg Lexeme.kind hclosing
  replace hleft : s.advance.advance.advance.advance.current.kind = .lBrace :=
    congrArg Lexeme.kind hleft
  replace hright : m.current.kind = .rBrace := congrArg Lexeme.kind hright
  have hskip : s₁.skipSeparators = s₂ := hbefore.skipSeparators hseps
    (start_of_lines hlines (fun n hn => (hnodes n hn).opens) hbody (by rw [hright]; rfl))
  have hlen := hbefore.length_le
  have hfuel' : s₂.tokens.length < fuel := by omega
  obtain ⟨nodes', herase, hread⟩ := body_gives hnodes hlines hbody hright hfuel' hfuel'
  have hne' : ¬ nodes'.isEmpty = true := by
    rw [List.isEmpty_iff]
    rintro rfl
    rw [Node.eraseAll_eq_map, Node.eraseAll_eq_map] at herase
    exact hne (List.map_eq_nil_iff.mp herase.symm)
  refine ⟨.function (s.current.span.hull m.current.span) ⟨name.text, s.advance.current.span⟩ []
    nodes', by rw [Node.erase, Node.erase, herase], ?_⟩
  rw [functionDef, bind_ok (expect_ok hword), bind_ok (expectIdent_ok hident),
    bind_ok (expect_ok hopening), current_bind]
  dsimp only
  rw [if_neg (not_not.mpr hclosing), bind_ok (expect_ok hclosing), bind_ok (expect_ok hleft), hnext,
    skipSeparators_bind, hskip, bind_ok hread, bind_ok (expect_ok hright), if_neg hne', hend, htext]
  rfl

theorem statement_gives {node : Node} (hnode : node.IsStatement spell) {ls : List Lexeme}
    (h : node.Writes spell ls) {fuel : Nat} {s s' : Stream} (hs : Covers ls s s')
    (hends : Ends 0 s') (hfuel : s.tokens.length < fuel) : Gives (statement fuel) node s s' := by
  unfold Node.IsStatement at hnode
  unfold Node.Writes at h
  split at h
  · rename_i d hd
    rw [hd] at hnode
    obtain ⟨_, hparams, hne, hbody⟩ := hnode
    obtain ⟨block, hblock, rfl⟩ := h
    obtain ⟨span, rfl⟩ : ∃ span, node = .function span d.name [] d.body := by
      cases node with
      | function span ident params body =>
          cases hd
          exact ⟨span, by rw [← hparams]⟩
      | _ => cases hd
    obtain ⟨node', herase, hread⟩ : Gives (functionDef (expression fuel 0) fuel)
        (.function span d.name [] d.body) s s' :=
      functionDef_gives (areExpressions d.body hbody) hne hblock span hfuel hs
    have hword : s.current.kind = .defWord := by
      obtain ⟨m, hfront, _⟩ := hs.append
      obtain ⟨m, hfront, _⟩ := hfront.append
      exact congrArg Lexeme.kind hfront.cons.1
    refine ⟨node', herase, ?_⟩
    rw [statement, current_bind, if_pos hword, hread]
  · rename_i hd
    rw [hd] at hnode
    subst h
    obtain ⟨node', herase, hread⟩ : Gives (expression fuel 0) node s s' :=
      (readable node hnode).1.expression (Nat.zero_le _) hs hends hfuel
    refine ⟨node', herase, ?_⟩
    rw [statement, current_bind, if_neg (hs.head (node.headed_lexemes hnode)).2, hread]

/-! ## Fragments -/

theorem opens_of_isStatement {node : Node} (hnode : node.IsStatement spell) :
    Opens (Node.Writes spell) node := by
  intro ls h
  unfold Node.IsStatement at hnode
  unfold Node.Writes at h
  split at h
  · obtain ⟨block, _, rfl⟩ := h
    exact ⟨.defWord, _, rfl, rfl⟩
  · rename_i hd
    rw [hd] at hnode
    obtain ⟨l, rest, hls, hl⟩ := node.headed_lexemes hnode
    exact ⟨l, rest, h.trans hls, hl.1⟩

theorem topLevel_gives {node : Node} (hnode : node.IsStatement spell) {ls : List Lexeme}
    (h : node.Writes spell ls) {fuel : Nat} {s s' : Stream} (hs : Covers ls s s')
    (hclosed : s'.current.kind.isSeparator = true ∨ s'.current.kind = .eof)
    (hfuel : s.tokens.length < fuel) : Gives (topLevel fuel) node s s' := by
  have hends : Ends 0 s' := .of_closed hclosed TokenKind.noConfusion rfl 0
  obtain ⟨node', herase, hread⟩ := statement_gives hnode h hs hends hfuel
  refine ⟨node', herase, ?_⟩
  rw [topLevel, bind_ok hread, bind_ok (endOfStatement_ok hclosed)]
  rfl

theorem collect_gives {nodes : List Node} (hnodes : ∀ node ∈ nodes, node.IsStatement spell)
    {ls : List Lexeme} (h : Lines (Node.Writes spell) nodes ls) {fuel turns : Nat} {s s' : Stream}
    (hs : Covers ls s s') (hs' : s'.tokens = []) (hfuel : s.tokens.length < fuel)
    (hturns : s.tokens.length ≤ turns) :
    ∃ nodes', Node.eraseAll nodes' = Node.eraseAll nodes ∧
      collect fuel turns s = (nodes', []) := by
  induction nodes generalizing ls turns s with
  | nil =>
      cases h
      obtain rfl := hs.nil
      refine ⟨[], rfl, ?_⟩
      cases turns with
      | zero => rfl
      | succ turns => rw [collect, if_pos (by rw [hs']; rfl)]
  | cons node nodes ih =>
      obtain ⟨hnode, hrest⟩ := List.forall_mem_cons.mp hnodes
      have heof : s'.current.kind = .eof := by rw [Stream.current, hs']; rfl
      obtain ⟨first, rest, m, hwrites, hfirst, hclosed, hlines, hback⟩ :=
        split_lines h (fun n hn => opens_of_isStatement (hrest n hn)) hs (by rw [heof]; rfl)
      rw [heof] at hclosed
      have hne : first ≠ [] := by
        obtain ⟨l, tail, rfl, _⟩ := opens_of_isStatement hnode first hwrites
        exact List.cons_ne_nil _ _
      have hlen := hfirst.length_lt hne
      have hlen' := Stream.length_le_of_append m.separators_append
      obtain ⟨turns, rfl⟩ := Nat.exists_eq_succ_of_ne_zero (by omega : turns ≠ 0)
      obtain ⟨node', herase, hread⟩ := topLevel_gives hnode hwrites hfirst hclosed hfuel
      have hturns' : m.skipSeparators.tokens.length ≤ turns := by omega
      obtain ⟨nodes', herase', hread'⟩ := ih hrest hlines hback (by omega) hturns'
      refine ⟨node' :: nodes', by rw [Node.eraseAll, Node.eraseAll, herase, herase'], ?_⟩
      have hgoes : ¬ s.tokens.isEmpty = true := by
        rw [List.isEmpty_iff]
        intro hnil
        rw [hnil] at hlen
        cases hlen
      rw [collect, if_neg hgoes, hread]
      simp only [hread']

end Spelling

end Parser

section Printing

variable {spell : Span → Literal → Lexeme} {f : Fragment} {text : String}

/-- The parser sees the lexemes that were laid out. -/
theorem ofSource_covers {ls : List Lexeme} (h : LaidOut ls text.toList) (hls : ∀ l ∈ ls, l.Plain) :
    Token.lexErrors text = [] ∧ ∃ size, Covers ls (Stream.ofSource text) ⟨[], size⟩ := by
  have hscan : (Token.scan text).map Token.erase = ls := h.scanFrom (fun l hl => (hls l hl).1) 0
  have hplain : ∀ t ∈ Token.scan text, t.erase.Plain := fun t ht =>
    hls t.erase (hscan ▸ List.mem_map_of_mem ht)
  have hseen : (Token.scan text).filter (!·.kind.isTrivia) = Token.scan text := by
    refine List.filter_eq_self.mpr fun t ht => ?_
    have hkind : t.kind ≠ .comment := (hplain t ht).2.1
    revert hkind
    cases t.kind <;> simp [TokenKind.isTrivia]
  refine ⟨?_, byteLength text.toList, Token.scan text, hscan, ?_⟩
  · refine List.filterMap_eq_nil_iff.mpr fun t ht => ?_
    exact if_neg (hplain t ht).2.2
  · rw [Stream.ofSource, hseen, List.append_nil]

theorem Fragment.parse_of_prints (hf : ∀ node ∈ f.nodes, node.IsStatement spell)
    (h : f.Prints spell text) : ∃ g, parse text = .ok g ∧ g.erase = f.erase := by
  obtain ⟨ls, hwritten, hlayout⟩ := h
  have hplain := hwritten.plain fun node hnode ls h => h.plain (hf node hnode)
  obtain ⟨herrors, size, hs⟩ := ofSource_covers hlayout hplain
  obtain ⟨seps, rest, hseps, hlines, rfl⟩ := hwritten
  obtain ⟨m, hbefore, hrest⟩ := hs.append
  have hskip : (Stream.ofSource text).skipSeparators = m := hbefore.skipSeparators hseps
    (Parser.start_of_lines hlines (fun n hn => Parser.opens_of_isStatement (hf n hn)) hrest rfl)
  have hlen := hbefore.length_le
  obtain ⟨nodes, herase, hcollect⟩ := Parser.collect_gives hf hlines hrest rfl
    (Nat.lt_succ_of_le hlen) hlen
  refine ⟨⟨nodes⟩, ?_, congrArg Fragment.mk herase⟩
  unfold Fragment.parse
  rw [herrors]
  dsimp only
  rw [hskip, hcollect]

/-- Every fragment of definitions and expressions can be written down, and each text for it is read
    as the fragment, up to spans. -/
theorem parsing_undoes_printing (spell : Span → Literal → Lexeme) (f : Fragment)
    (hf : ∀ node ∈ f.nodes, node.IsStatement spell) :
    (∃ text, f.Prints spell text) ∧
      ∀ text, f.Prints spell text → ∃ g, Fragment.parse text = .ok g ∧ g.erase = f.erase :=
  ⟨f.exists_prints hf, fun _ h => f.parse_of_prints hf h⟩

end Printing

def tableSpelling (_ : Span) (value : Literal) : Lexeme :=
  let table : List (Literal × Lexeme) :=
    [(.least, ⟨.int, "9_223_372_036_854_775_808"⟩), (.signed 7, ⟨.int, "0_7"⟩),
     (.unsigned 2, ⟨.unsigned, "2_U"⟩), (.boolean true, ⟨.trueWord, "True"⟩)]
  (table.lookup value).getD ⟨.falseWord, "False"⟩

def writtenFragment : Fragment :=
  let o : Span := ⟨0, 0⟩
  let call : Node := .call o ⟨"f", o⟩ [.literal o (.unsigned 2), .negate o (.literal o .least)]
  ⟨[.function o ⟨"f", o⟩ []
      [.name o "x", .conditional o .whenForm (.literal o (.boolean true)) call
        (.literal o (.boolean false))],
    .binary o .sub (.binary o .sub (.literal o .least) (.literal o (.signed 7)))
      (.binary o .sub call (.conditional o .ifForm (.name o "x") call call))]⟩

theorem writtenFragment_read :
    (∀ node ∈ writtenFragment.nodes, node.IsStatement tableSpelling) ∧
      ∃ text, writtenFragment.Prints tableSpelling text ∧
        ∃ g, Fragment.parse text = .ok g ∧ g.erase = writtenFragment.erase := by
  have hf : ∀ node ∈ writtenFragment.nodes, node.IsStatement tableSpelling := by decide +kernel
  obtain ⟨⟨text, htext⟩, hread⟩ := parsing_undoes_printing tableSpelling writtenFragment hf
  exact ⟨hf, text, htext, hread text htext⟩

end ScalarLang
