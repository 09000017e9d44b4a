import Mathlib
import ScalarLang.Proofs.Parse.Grammar
import ScalarLang.Proofs.Token.Layout

/-
  Writing fragments down.
  An expression is written with as few parentheses as its operators need: an operand stands in
  parentheses if it binds less tightly than its place asks for. Conditionals, which take all that
  follows, are in parentheses wherever they are operands, as are tests and first arms. Literals
  are spelled in any way that is read as the literal. A text for a fragment has its statements
  apart by newlines or semicolons and its lexemes laid out in any way.
-/

namespace ScalarLang

/-! ## Trees without spans -/

mutual

/-- The tree with all spans forgotten. -/
def Node.erase : Node → Node
  | .literal _ value => .literal ⟨0, 0⟩ value
  | .name _ text => .name ⟨0, 0⟩ text
  | .binary _ op lhs rhs => .binary ⟨0, 0⟩ op lhs.erase rhs.erase
  | .negate _ operand => .negate ⟨0, 0⟩ operand.erase
  | .conditional _ form test thenArm elseArm =>
    .conditional ⟨0, 0⟩ form test.erase thenArm.erase elseArm.erase
  | .function _ ident params body =>
    .function ⟨0, 0⟩ ⟨ident.text, ⟨0, 0⟩⟩ (params.map fun p => ⟨p.text, ⟨0, 0⟩⟩)
      (Node.eraseAll body)
  | .call _ callee args => .call ⟨0, 0⟩ ⟨callee.text, ⟨0, 0⟩⟩ (Node.eraseAll args)

def Node.eraseAll : List Node → List Node
  | [] => []
  | node :: rest => node.erase :: Node.eraseAll rest

end

theorem Node.eraseAll_eq_map (nodes : List Node) : eraseAll nodes = nodes.map erase := by
  induction nodes with
  | nil => rfl
  | cons node rest ih => rw [eraseAll, List.map_cons, ih]

def Fragment.erase (f : Fragment) : Fragment := ⟨Node.eraseAll f.nodes⟩

/-! ## Lexemes -/

namespace Lexeme

def minus : Lexeme := ⟨.minus, "-"⟩
def opening : Lexeme := ⟨.lParen, "("⟩
def closing : Lexeme := ⟨.rParen, ")"⟩
def comma : Lexeme := ⟨.comma, ","⟩
def elseWord : Lexeme := ⟨.elseWord, "else"⟩
def defWord : Lexeme := ⟨.defWord, "def"⟩
def leftBrace : Lexeme := ⟨.lBrace, "\x7b"⟩
def rightBrace : Lexeme := ⟨.rBrace, "\x7d"⟩
def newline : Lexeme := ⟨.newline, "\n"⟩
def semicolon : Lexeme := ⟨.semicolon, ";"⟩

def word (text : String) : Lexeme := ⟨.ident, text⟩

/-- The literal a lexeme stands for. -/
def literal? (l : Lexeme) : Option (Except NumberError Literal) :=
  Token.literal? ⟨l.kind, ⟨0, 0⟩, l.text⟩

end Lexeme

def BinaryOp.kind : BinaryOp → TokenKind
  | add => .plus
  | sub => .minus
  | mul => .star
  | div => .slash
  | bitAnd => .ampersand
  | bitOr => .pipe
  | bitXor => .caret
  | shl => .shl
  | shr => .shr
  | eq => .eqEq
  | ne => .notEq
  | gt => .gt
  | lt => .lt
  | ge => .gtEq
  | le => .ltEq

def BinaryOp.lexeme (op : BinaryOp) : Lexeme := ⟨op.kind, op.symbol⟩

def ConditionalForm.kind : ConditionalForm → TokenKind
  | ifForm => .ifWord
  | whenForm => .whenWord

def ConditionalForm.lexeme (form : ConditionalForm) : Lexeme := ⟨form.kind, form.keyword⟩

/-- The least signed integer, which is written with a minus. -/
def Literal.least : Literal := .signed (BitVec.intMin 64)

/-- The lexeme is read as the literal; for the least signed integer, after a minus. -/
def Literal.SpelledBy (value : Literal) (l : Lexeme) : Prop :=
  l.isProper = true ∧
    if value = .least then l.kind = .int ∧ NumberToken.isMinMagnitude l.text = true
    else l.literal? = some (.ok value)

instance (value : Literal) (l : Lexeme) : Decidable (value.SpelledBy l) :=
  inferInstanceAs (Decidable (_ ∧ _))

/-! ## Expressions -/

/-- How tightly an expression binds as it is written: as its operator, if it has one. -/
def Node.tightness : Node → Nat
  | .binary _ op _ _ => op.precedence
  | .conditional _ _ _ _ _ => 0
  | _ => 8

def parenthesize (ls : List Lexeme) : List Lexeme := [.opening] ++ ls ++ [.closing]

/-- What binds with the given tightness, at a place that asks for a level. -/
def enclose (tightness level : Nat) (ls : List Lexeme) : List Lexeme :=
  if tightness < level then parenthesize ls else ls

section Spelling

-- How literals are spelled, which may depend on where they stand.
variable (spell : Span → Literal → Lexeme)

mutual

/-- The expression, written down. -/
def Node.lexemes : Node → List Lexeme
  | .literal span value =>
    (if value = .least then [.minus] else []) ++ [spell span value]
  | .name _ text => [.word text]
  | .binary _ op lhs rhs =>
    enclose lhs.tightness op.precedence lhs.lexemes ++ [op.lexeme] ++
      enclose rhs.tightness (op.precedence + 1) rhs.lexemes
  | .negate _ operand => [.minus] ++ enclose operand.tightness 8 operand.lexemes
  | .conditional _ form test thenArm elseArm =>
    [form.lexeme] ++ parenthesize test.lexemes ++ parenthesize thenArm.lexemes ++ [.elseWord] ++
      elseArm.lexemes
  | .call _ callee args => [.word callee.text, .opening] ++ Node.listLexemes args ++ [.closing]
  | .function _ _ _ _ => []

/-- The arguments of a call, with commas between them. -/
def Node.listLexemes : List Node → List Lexeme
  | [] => []
  | [arg] => arg.lexemes
  | arg :: next :: rest => arg.lexemes ++ [.comma] ++ Node.listLexemes (next :: rest)

end

-- On the left an operator of the same level needs no parentheses; on the right it does.
example (s : Span) :
    ((Node.binary s .sub (.binary s .sub (.name s "a") (.binary s .mul (.name s "b") (.name s "c")))
      (.binary s .sub (.name s "d") (.negate s (.name s "e")))).lexemes spell).map Lexeme.text =
      ["a", "-", "b", "*", "c", "-", "(", "d", "-", "-", "e", ")"] := rfl

mutual

/-- An expression of names that are identifiers and of literals that are spelled right. -/
def Node.Writable : Node → Prop
  | .literal span value => value.SpelledBy (spell span value)
  | .name _ text => (Lexeme.word text).isProper = true
  | .binary _ _ lhs rhs => lhs.Writable ∧ rhs.Writable
  | .negate _ operand => operand.Writable
  | .conditional _ _ test thenArm elseArm =>
    test.Writable ∧ thenArm.Writable ∧ elseArm.Writable
  | .call _ callee args => (Lexeme.word callee.text).isProper = true ∧ Node.AllWritable args
  | .function _ _ _ _ => False

def Node.AllWritable : List Node → Prop
  | [] => True
  | node :: rest => node.Writable ∧ Node.AllWritable rest

end

mutual

def Node.decWritable : (node : Node) → Decidable (node.Writable spell)
  | .literal span value => inferInstanceAs (Decidable (value.SpelledBy (spell span value)))
  | .name _ text => inferInstanceAs (Decidable ((Lexeme.word text).isProper = true))
  | .binary _ _ lhs rhs => @instDecidableAnd _ _ lhs.decWritable rhs.decWritable
  | .negate _ operand => operand.decWritable
  | .conditional _ _ test thenArm elseArm =>
    @instDecidableAnd _ _ test.decWritable
      (@instDecidableAnd _ _ thenArm.decWritable elseArm.decWritable)
  | .call _ _ args => @instDecidableAnd _ _ inferInstance (Node.decAllWritable args)
  | .function _ _ _ _ => inferInstanceAs (Decidable False)

def Node.decAllWritable : (nodes : List Node) → Decidable (Node.AllWritable spell nodes)
  | [] => inferInstanceAs (Decidable True)
  | node :: rest => @instDecidableAnd _ _ node.decWritable (Node.decAllWritable rest)

end

instance : DecidablePred (Node.Writable spell) := Node.decWritable spell

instance : DecidablePred (Node.AllWritable spell) := Node.decAllWritable spell

/-! ## Fragments -/

/-- A definition without parameters of a body that is not empty, or an expression. -/
def Node.IsStatement (node : Node) : Prop :=
  match node.definition? with
  | some d => (Lexeme.word d.name.text).isProper = true ∧ d.params = [] ∧ d.body ≠ [] ∧
      Node.AllWritable spell d.body
  | none => node.Writable spell

instance : DecidablePred (Node.IsStatement spell) := fun node =>
  match h : node.definition? with
  | some d => decidable_of_iff ((Lexeme.word d.name.text).isProper = true ∧ d.params = [] ∧
      d.body ≠ [] ∧ Node.AllWritable spell d.body) (by simp [Node.IsStatement, h])
  | none => decidable_of_iff (node.Writable spell) (by simp [Node.IsStatement, h])

/-- Lexemes that may stand between statements. -/
def Lexeme.Separators (ls : List Lexeme) : Prop := ∀ l ∈ ls, l = newline ∨ l = semicolon

/-- Statements one after the other, each ended by separators if another follows. -/
inductive Lines (writes : Node → List Lexeme → Prop) : List Node → List Lexeme → Prop
  | done : Lines writes [] []
  | line {node : Node} {nodes : List Node} {ls seps rest : List Lexeme} (h : writes node ls)
      (hseps : Lexeme.Separators seps) (hends : nodes ≠ [] → seps ≠ [])
      (hrest : Lines writes nodes rest) : Lines writes (node :: nodes) (ls ++ seps ++ rest)

/-- Separators may also stand before the first statement. -/
def Enclosed (writes : Node → List Lexeme → Prop) (nodes : List Node) (ls : List Lexeme) : Prop :=
  ∃ seps rest, Lexeme.Separators seps ∧ Lines writes nodes rest ∧ ls = seps ++ rest

/-- The lexemes are the statement, written down. -/
def Node.Writes (node : Node) (ls : List Lexeme) : Prop :=
  match node.definition? with
  | some d => ∃ block, Enclosed (fun node ls => ls = node.lexemes spell) d.body block ∧
      ls = [.defWord, .word d.name.text, .opening, .closing, .leftBrace] ++ block ++ [.rightBrace]
  | none => ls = node.lexemes spell

/-- The text is the fragment, written down. -/
def Fragment.Prints (f : Fragment) (text : String) : Prop :=
  ∃ ls, Enclosed (Node.Writes spell) f.nodes ls ∧ LaidOut ls text.toList

end Spelling

/-! ## What is written -/

theorem Node.tightness_le (node : Node) : node.tightness ≤ 8 := by
  cases node with
  | binary _ op _ _ => exact op.precedence_le.trans (by decide)
  | _ => simp [Node.tightness]

theorem BinaryOp.binaryOp?_kind (op : BinaryOp) : op.kind.binaryOp? = some op := by
  cases op <;> rfl

namespace Lexeme

/-- Scanning finds the lexeme, and parsers see it. -/
def Plain (l : Lexeme) : Prop := l.isProper = true ∧ l.kind ≠ .comment ∧ l.kind ≠ .unknown

instance (l : Lexeme) : Decidable l.Plain := inferInstanceAs (Decidable (_ ∧ _))

theorem plain_word {text : String} (h : (word text).isProper = true) : (word text).Plain :=
  ⟨h, TokenKind.noConfusion, TokenKind.noConfusion⟩

theorem plain_of_isLiteral {l : Lexeme} (h : l.isProper = true) (hkind : l.kind.isLiteral = true) :
    l.Plain := by
  refine ⟨h, fun hk => ?_, fun hk => ?_⟩ <;> rw [hk] at hkind <;> cases hkind

theorem Separators.plain {ls : List Lexeme} (h : Separators ls) : ∀ l ∈ ls, l.Plain := by
  intro l hl
  rcases h l hl with rfl | rfl <;> decide

end Lexeme

open Lexeme (Plain)

theorem BinaryOp.plain_lexeme (op : BinaryOp) : op.lexeme.Plain := by
  cases op <;> decide

theorem ConditionalForm.plain_lexeme (form : ConditionalForm) : form.lexeme.Plain := by
  cases form <;> decide

theorem Literal.SpelledBy.isLiteral {value : Literal} {l : Lexeme} (h : value.SpelledBy l) :
    l.kind.isLiteral = true := by
  obtain ⟨_, h⟩ := h
  split at h
  · rw [h.1]
    rfl
  · exact Token.literal_isLiteral h

theorem plain_parenthesize {ls : List Lexeme} (h : ∀ l ∈ ls, l.Plain) :
    ∀ l ∈ parenthesize ls, l.Plain := by
  have hopening : Lexeme.opening.Plain := by decide
  have hclosing : Lexeme.closing.Plain := by decide
  simpa [parenthesize, or_imp, forall_and, hopening, hclosing] using h

theorem plain_enclose {ls : List Lexeme} (h : ∀ l ∈ ls, l.Plain) (tightness level : Nat) :
    ∀ l ∈ enclose tightness level ls, l.Plain := by
  unfold enclose
  split
  · exact plain_parenthesize h
  · exact h

section Written

variable {spell : Span → Literal → Lexeme}

theorem Node.allWritable_iff {nodes : List Node} :
    AllWritable spell nodes ↔ ∀ node ∈ nodes, node.Writable spell := by
  induction nodes with
  | nil => simp [AllWritable]
  | cons node rest ih => rw [AllWritable, List.forall_mem_cons, ih]

mutual

theorem Node.plain_lexemes : ∀ node : Node, node.Writable spell →
    ∀ l ∈ node.lexemes spell, l.Plain
  | .literal span value, h => by
      have hspelled := Lexeme.plain_of_isLiteral h.1 h.isLiteral
      have hminus : Lexeme.minus.Plain := by decide
      rw [Node.lexemes]
      split
      · simp [hspelled, hminus]
      · simp [hspelled]
  | .name _ text, h => by
      rw [Node.lexemes]
      simpa using Lexeme.plain_word h
  | .binary _ op lhs rhs, h => by
      have hlhs := plain_enclose (lhs.plain_lexemes h.1) lhs.tightness op.precedence
      have hrhs := plain_enclose (rhs.plain_lexemes h.2) rhs.tightness (op.precedence + 1)
      rw [Node.lexemes]
      simp only [List.forall_mem_append, List.forall_mem_singleton]
      exact ⟨⟨hlhs, op.plain_lexeme⟩, hrhs⟩
  | .negate _ operand, h => by
      have hoperand := plain_enclose (operand.plain_lexemes h) operand.tightness 8
      rw [Node.lexemes]
      simp only [List.forall_mem_append, List.forall_mem_singleton]
      exact ⟨by decide, hoperand⟩
  | .conditional _ form test thenArm elseArm, h => by
      have htest := plain_parenthesize (test.plain_lexemes h.1)
      have hthen := plain_parenthesize (thenArm.plain_lexemes h.2.1)
      have helse := elseArm.plain_lexemes h.2.2
      rw [Node.lexemes]
      simp only [List.forall_mem_append, List.forall_mem_singleton]
      exact ⟨⟨⟨⟨form.plain_lexeme, htest⟩, hthen⟩, by decide⟩, helse⟩
  | .call _ callee args, h => by
      have hargs := Node.plain_listLexemes args h.2
      rw [Node.lexemes]
      simp only [List.forall_mem_append, List.forall_mem_singleton, List.forall_mem_cons]
      exact ⟨⟨⟨Lexeme.plain_word h.1, by decide⟩, hargs⟩, by decide⟩
  | .function _ _ _ _, h => h.elim

theorem Node.plain_listLexemes : ∀ nodes : List Node, Node.AllWritable spell nodes →
    ∀ l ∈ Node.listLexemes spell nodes, l.Plain
  | [], _ => by simp [Node.listLexemes]
  | [arg], h => by
      rw [Node.listLexemes]
      exact arg.plain_lexemes h.1
  | arg :: next :: rest, h => by
      have harg := arg.plain_lexemes h.1
      have hrest := Node.plain_listLexemes (next :: rest) h.2
      rw [Node.listLexemes]
      simp only [List.forall_mem_append, List.forall_mem_singleton]
      exact ⟨⟨harg, by decide⟩, hrest⟩

end

theorem Lines.plain {writes : Node → List Lexeme → Prop} {nodes : List Node} {ls : List Lexeme}
    (h : Lines writes nodes ls)
    (hwrites : ∀ node ∈ nodes, ∀ ls, writes node ls → ∀ l ∈ ls, l.Plain) : ∀ l ∈ ls, l.Plain := by
  induction h with
  | done => simp
  | line h hseps _ _ ih =>
      obtain ⟨hnode, hnodes⟩ := List.forall_mem_cons.mp hwrites
      simp only [List.forall_mem_append]
      exact ⟨⟨hnode _ h, hseps.plain⟩, ih hnodes⟩

theorem Enclosed.plain {writes : Node → List Lexeme → Prop} {nodes : List Node} {ls : List Lexeme}
    (h : Enclosed writes nodes ls)
    (hwrites : ∀ node ∈ nodes, ∀ ls, writes node ls → ∀ l ∈ ls, l.Plain) : ∀ l ∈ ls, l.Plain := by
  obtain ⟨seps, rest, hseps, hlines, rfl⟩ := h
  exact List.forall_mem_append.mpr ⟨hseps.plain, hlines.plain hwrites⟩

theorem Node.Writes.plain {node : Node} {ls : List Lexeme} (hnode : node.IsStatement spell)
    (h : node.Writes spell ls) : ∀ l ∈ ls, l.Plain := by
  unfold Node.Writes at h
  unfold Node.IsStatement at hnode
  split at h
  · rename_i d hd
    rw [hd] at hnode
    obtain ⟨hname, _, _, hbody⟩ := hnode
    obtain ⟨block, hblock, rfl⟩ := h
    have hplain := hblock.plain fun node hnode ls hls =>
      hls ▸ node.plain_lexemes (Node.allWritable_iff.mp hbody node hnode)
    simp only [List.forall_mem_append, List.forall_mem_singleton, List.forall_mem_cons]
    exact ⟨⟨⟨by decide, Lexeme.plain_word hname, by decide, by decide, by decide⟩, hplain⟩,
      by decide⟩
  · rename_i hd
    rw [hd] at hnode
    subst h
    exact node.plain_lexemes hnode

/-! ## There is a text for every fragment -/

theorem Lines.exists_of_forall {writes : Node → List Lexeme → Prop} {nodes : List Node}
    (h : ∀ node ∈ nodes, ∃ ls, writes node ls) : ∃ ls, Lines writes nodes ls := by
  induction nodes with
  | nil => exact ⟨[], .done⟩
  | cons node nodes ih =>
      obtain ⟨⟨ls, hls⟩, hnodes⟩ := List.forall_mem_cons.mp h
      obtain ⟨rest, hrest⟩ := ih hnodes
      have hseps : Lexeme.Separators [.newline] := by simp [Lexeme.Separators]
      exact ⟨_, .line hls hseps (by simp) hrest⟩

theorem Enclosed.exists_of_forall {writes : Node → List Lexeme → Prop} {nodes : List Node}
    (h : ∀ node ∈ nodes, ∃ ls, writes node ls) : ∃ ls, Enclosed writes nodes ls := by
  obtain ⟨ls, hls⟩ := Lines.exists_of_forall h
  exact ⟨ls, [], ls, by simp [Lexeme.Separators], hls, rfl⟩

theorem Node.exists_writes (node : Node) : ∃ ls, node.Writes spell ls := by
  unfold Node.Writes
  split
  · rename_i d _
    obtain ⟨block, hblock⟩ : ∃ ls, Enclosed (fun node ls => ls = node.lexemes spell) d.body ls :=
      Enclosed.exists_of_forall fun node _ => ⟨node.lexemes spell, rfl⟩
    exact ⟨_, block, hblock, rfl⟩
  · exact ⟨_, rfl⟩

theorem Fragment.exists_prints {f : Fragment} (hf : ∀ node ∈ f.nodes, node.IsStatement spell) :
    ∃ text, f.Prints spell text := by
  obtain ⟨ls, hls⟩ : ∃ ls, Enclosed (Node.Writes spell) f.nodes ls :=
    Enclosed.exists_of_forall fun node _ => node.exists_writes
  have hplain := hls.plain fun node hnode ls h => h.plain (hf node hnode)
  refine ⟨String.ofList (ls.flatMap fun l => l.text.toList ++ [' ']), ls, hls, ?_⟩
  rw [String.toList_ofList]
  exact .spaced fun l hl => (hplain l hl).2.1

/-! ## First lexemes -/

/-- What an expression may start with. An integer that is a literal only after a minus is not
    among them. -/
def Lexeme.Starts (l : Lexeme) : Prop :=
  l.kind.opens = true ∧ l.kind ≠ .defWord ∧
    (l.kind = .int → NumberToken.isMinMagnitude l.text = false)

/-- The lexemes start as an expression may. -/
def Lexeme.Headed (ls : List Lexeme) : Prop := ∃ l rest, ls = l :: rest ∧ l.Starts

open Lexeme (Headed)

theorem Lexeme.Headed.cons {l : Lexeme}
    (h : l.kind.opens = true ∧ l.kind ≠ .defWord ∧ l.kind ≠ .int) (rest : List Lexeme) :
    Headed (l :: rest) :=
  ⟨l, rest, rfl, h.1, h.2.1, fun hint => absurd hint h.2.2⟩

theorem Lexeme.Headed.word (text : String) (rest : List Lexeme) : Headed (.word text :: rest) :=
  cons ⟨rfl, TokenKind.noConfusion, TokenKind.noConfusion⟩ rest

theorem Lexeme.Starts.literal {l : Lexeme} {value : Literal}
    (h : l.literal? = some (.ok value)) : l.Starts := by
  have hkind : l.kind.isLiteral = true := Token.literal_isLiteral h
  refine ⟨TokenKind.opens_of_isLiteral hkind, fun hdef => ?_, fun hint => ?_⟩
  · rw [hdef] at hkind
    cases hkind
  · have hsigned : NumberToken.signed l.text = .ok value := by
      simpa [Lexeme.literal?, Token.literal?, hint] using h
    unfold NumberToken.signed at hsigned
    dsimp only at hsigned
    split at hsigned
    · rename_i hlt
      exact beq_false_of_ne (Nat.ne_of_lt hlt)
    · cases hsigned

theorem Lexeme.Headed.append {ls : List Lexeme} (h : Headed ls) (ls' : List Lexeme) :
    Headed (ls ++ ls') := by
  obtain ⟨l, rest, rfl, hl⟩ := h
  exact ⟨l, rest ++ ls', rfl, hl⟩

theorem headed_enclose {ls : List Lexeme} (h : Headed ls) (tightness level : Nat) :
    Headed (enclose tightness level ls) := by
  unfold enclose
  split
  · exact .cons (by decide) _
  · exact h

theorem Node.headed_lexemes : ∀ node : Node, node.Writable spell → Headed (node.lexemes spell)
  | .literal span value, h => by
      obtain ⟨_, h⟩ := h
      rw [Node.lexemes]
      split at h
      · rename_i hleast
        rw [if_pos hleast]
        exact .cons (by decide) _
      · rename_i hleast
        rw [if_neg hleast]
        exact ⟨_, _, rfl, .literal h⟩
  | .name _ text, _ => by
      rw [Node.lexemes]
      exact .word text _
  | .binary _ op lhs rhs, h => by
      rw [Node.lexemes, List.append_assoc]
      exact (headed_enclose (lhs.headed_lexemes h.1) _ _).append _
  | .negate _ operand, _ => by
      rw [Node.lexemes]
      exact .cons (by decide) _
  | .conditional _ form test thenArm elseArm, _ => by
      rw [Node.lexemes]
      exact .cons (by cases form <;> decide) _
  | .call _ callee args, _ => by
      rw [Node.lexemes]
      exact .word callee.text _
  | .function _ _ _ _, h => h.elim

end Written

end ScalarLang
