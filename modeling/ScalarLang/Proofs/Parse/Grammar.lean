import Mathlib
import ScalarLang.Parse.Fragment

/-
  The grammar of fragments, as derivations that say which tree a sequence of tokens stands for.

    fragment    := sep* (statement (sep+ statement)*)? sep* EOF
    statement   := function | expression
    function    := 'def' IDENT '(' ')' '{' sep* statement (sep+ statement)* sep* '}'
    expression  := conditional | binary
    conditional := ('if' | 'when') expression expression 'else' expression
    binary      := seven levels of operators, all of which associate to the left
    unary       := '-' unary | primary
    primary     := literal | IDENT | IDENT '(' (expression (',' expression)*)? ')'
                 | '(' expression ')' | conditional

  Two grammars are defined at once. In the strict one no comma stands before the parenthesis that
  closes a call; in the loose one a comma may follow the last argument. What the loose grammar
  derives is derived by the strict one exactly if no comma stands directly before a closing
  parenthesis.
-/

namespace ScalarLang

inductive Nonterminal where
  | fragment
  | statements
  | statement
  | function
  | expression
  | conditional
  | binary (level : Nat)
  | unary
  | primary
  | arguments
deriving DecidableEq

/-- The form of conditional that a token starts. -/
def TokenKind.conditionalForm? : TokenKind → Option ConditionalForm
  | ifWord => some .ifForm
  | whenWord => some .whenForm
  | _ => none

def Token.Separators (ts : List Token) : Prop := ∀ t ∈ ts, t.kind.isSeparator = true

open Token (Separators)

/-- The tokens derive from the nonterminal, and the nodes are what they stand for. An operator
    stands at the level of its precedence, with operands of that level on its left and of the next
    level on its right; above the last level there is no operator. -/
inductive Derives (loose : Bool) : Nonterminal → List Token → List Node → Prop
  | blank {seps : List Token} {last : Token} (hseps : Separators seps) (hlast : last.kind = .eof) :
      Derives loose .fragment (seps ++ [last]) []
  | fragment {before ts after : List Token} {last : Token} {nodes : List Node}
      (hbefore : Separators before) (h : Derives loose .statements ts nodes)
      (hafter : Separators after) (hlast : last.kind = .eof) :
      Derives loose .fragment (before ++ ts ++ after ++ [last]) nodes
  | single {ts : List Token} {nodes : List Node} (h : Derives loose .statement ts nodes) :
      Derives loose .statements ts nodes
  | sequence {ts seps us : List Token} {node : Node} {nodes : List Node}
      (h : Derives loose .statement ts [node]) (hseps : Separators seps) (hne : seps ≠ [])
      (hrest : Derives loose .statements us nodes) :
      Derives loose .statements (ts ++ seps ++ us) (node :: nodes)
  | definition {ts : List Token} {nodes : List Node} (h : Derives loose .function ts nodes) :
      Derives loose .statement ts nodes
  | evaluation {ts : List Token} {nodes : List Node} (h : Derives loose .expression ts nodes) :
      Derives loose .statement ts nodes
  | function {word name opening closing left right : Token} {before ts after : List Token}
      {body : List Node} (hword : word.kind = .defWord) (hname : name.kind = .ident)
      (hopening : opening.kind = .lParen) (hclosing : closing.kind = .rParen)
      (hleft : left.kind = .lBrace) (hbefore : Separators before)
      (h : Derives loose .statements ts body) (hafter : Separators after)
      (hright : right.kind = .rBrace) :
      Derives loose .function
        ([word, name, opening, closing, left] ++ (before ++ ts ++ after ++ [right]))
        [.function (word.span.hull right.span) ⟨name.lexeme, name.span⟩ [] body]
  | choice {ts : List Token} {nodes : List Node} (h : Derives loose .conditional ts nodes) :
      Derives loose .expression ts nodes
  | operators {ts : List Token} {nodes : List Node} (h : Derives loose (.binary 1) ts nodes) :
      Derives loose .expression ts nodes
  | conditional {word mid : Token} {form : ConditionalForm} {ts us vs : List Token}
      {test thenArm elseArm : Node} (hword : word.kind.conditionalForm? = some form)
      (htest : Derives loose .expression ts [test])
      (hthen : Derives loose .expression us [thenArm]) (hmid : mid.kind = .elseWord)
      (helse : Derives loose .expression vs [elseArm]) :
      Derives loose .conditional ([word] ++ ts ++ us ++ [mid] ++ vs)
        [.conditional (word.span.hull elseArm.span) form test thenArm elseArm]
  | operation {ts us : List Token} {sign : Token} {op : BinaryOp} {lhs rhs : Node}
      (hlhs : Derives loose (.binary op.precedence) ts [lhs])
      (hsign : sign.kind.binaryOp? = some op)
      (hrhs : Derives loose (.binary (op.precedence + 1)) us [rhs]) :
      Derives loose (.binary op.precedence) (ts ++ [sign] ++ us)
        [.binary (lhs.span.hull rhs.span) op lhs rhs]
  | tighter {level : Nat} {ts : List Token} {nodes : List Node}
      (h : Derives loose (.binary (level + 1)) ts nodes) : Derives loose (.binary level) ts nodes
  | tightest {ts : List Token} {nodes : List Node} (h : Derives loose .unary ts nodes) :
      Derives loose (.binary 8) ts nodes
  | negation {sign : Token} {ts : List Token} {operand : Node} (hsign : sign.kind = .minus)
      (h : Derives loose .unary ts [operand]) :
      Derives loose .unary ([sign] ++ ts) [.negate (sign.span.hull operand.span) operand]
  /-- A minus directly before `2 ^ 63`, which is no literal by itself. -/
  | least {sign number : Token} (hsign : sign.kind = .minus) (hnumber : number.kind = .int)
      (hleast : NumberToken.isMinMagnitude number.lexeme = true) :
      Derives loose .unary [sign, number]
        [.literal (sign.span.hull number.span) (.signed (BitVec.intMin 64))]
  | primary {ts : List Token} {nodes : List Node} (h : Derives loose .primary ts nodes) :
      Derives loose .unary ts nodes
  | literal {t : Token} {value : Literal} (h : t.literal? = some (.ok value)) :
      Derives loose .primary [t] [.literal t.span value]
  | name {t : Token} (h : t.kind = .ident) : Derives loose .primary [t] [.name t.span t.lexeme]
  | callEmpty {callee opening closing : Token} (hcallee : callee.kind = .ident)
      (hopening : opening.kind = .lParen) (hclosing : closing.kind = .rParen) :
      Derives loose .primary [callee, opening, closing]
        [.call (callee.span.hull closing.span) ⟨callee.lexeme, callee.span⟩ []]
  | call {callee opening closing : Token} {ts : List Token} {args : List Node}
      (hcallee : callee.kind = .ident) (hopening : opening.kind = .lParen)
      (h : Derives loose .arguments ts args) (hclosing : closing.kind = .rParen) :
      Derives loose .primary ([callee, opening] ++ ts ++ [closing])
        [.call (callee.span.hull closing.span) ⟨callee.lexeme, callee.span⟩ args]
  /-- Only the loose grammar has this rule. -/
  | callTrailing {callee opening comma closing : Token} {ts : List Token} {args : List Node}
      (hloose : loose = true) (hcallee : callee.kind = .ident) (hopening : opening.kind = .lParen)
      (h : Derives loose .arguments ts args) (hcomma : comma.kind = .comma)
      (hclosing : closing.kind = .rParen) :
      Derives loose .primary ([callee, opening] ++ ts ++ [comma, closing])
        [.call (callee.span.hull closing.span) ⟨callee.lexeme, callee.span⟩ args]
  | parentheses {opening closing : Token} {ts : List Token} {nodes : List Node}
      (hopening : opening.kind = .lParen) (h : Derives loose .expression ts nodes)
      (hclosing : closing.kind = .rParen) :
      Derives loose .primary ([opening] ++ ts ++ [closing]) nodes
  | selection {ts : List Token} {nodes : List Node} (h : Derives loose .conditional ts nodes) :
      Derives loose .primary ts nodes
  | argument {ts : List Token} {nodes : List Node} (h : Derives loose .expression ts nodes) :
      Derives loose .arguments ts nodes
  | arguments {ts us : List Token} {comma : Token} {arg : Node} {args : List Node}
      (h : Derives loose .expression ts [arg]) (hcomma : comma.kind = .comma)
      (hrest : Derives loose .arguments us args) :
      Derives loose .arguments (ts ++ [comma] ++ us) (arg :: args)

theorem BinaryOp.precedence_pos (op : BinaryOp) : 1 ≤ op.precedence := by
  cases op <;> decide

theorem BinaryOp.precedence_le (op : BinaryOp) : op.precedence ≤ 7 := by
  cases op <;> decide

/-! ## First and last tokens -/

/-- Tokens that a statement, or a part of one, may start with. -/
def TokenKind.opens : TokenKind → Bool
  | defWord | ident | minus | lParen | ifWord | whenWord => true
  | kind => kind.isLiteral

/-- Tokens that a statement, or a part of one, may end with. -/
def TokenKind.closes : TokenKind → Bool
  | ident | rParen | rBrace => true
  | kind => kind.isLiteral

/-- The tokens start and end as those of a statement may. -/
def Token.Framed (ts : List Token) : Prop :=
  (∃ t ∈ ts.head?, t.kind.opens = true) ∧ ∃ t ∈ ts.getLast?, t.kind.closes = true

open Token (Framed)

theorem Token.literal_isLiteral {t : Token} {r : Except NumberError Literal}
    (h : t.literal? = some r) : t.kind.isLiteral = true := by
  unfold Token.literal? at h
  split at h <;> simp_all [TokenKind.isLiteral]

theorem TokenKind.opens_of_isLiteral {kind : TokenKind} (h : kind.isLiteral = true) :
    kind.opens = true := by
  cases kind <;> simp_all [opens, isLiteral]

theorem TokenKind.isSeparator_of_opens {kind : TokenKind} (h : kind.opens = true) :
    kind.isSeparator = false := by
  cases kind <;> first | rfl | cases h

theorem TokenKind.closes_of_isLiteral {kind : TokenKind} (h : kind.isLiteral = true) :
    kind.closes = true := by
  cases kind <;> simp_all [closes, isLiteral]

theorem TokenKind.opens_of_conditionalForm {kind : TokenKind} {form : ConditionalForm}
    (h : kind.conditionalForm? = some form) : kind.opens = true := by
  cases kind <;> simp_all [opens, conditionalForm?]

namespace Token.Framed

/-- What starts and ends the tokens frames them, whatever stands between. -/
theorem between {first last : Token} (hfirst : first.kind.opens = true)
    (hlast : last.kind.closes = true) (ts : List Token) : Framed (first :: (ts ++ [last])) :=
  ⟨⟨first, rfl, hfirst⟩, last, by simp [List.getLast?_cons, List.getLast?_append], hlast⟩

theorem single {t : Token} (hopens : t.kind.opens = true) (hcloses : t.kind.closes = true) :
    Framed [t] :=
  ⟨⟨t, rfl, hopens⟩, t, rfl, hcloses⟩

theorem append {ts us : List Token} (h : Framed ts) (h' : Framed us) (mid : List Token) :
    Framed (ts ++ mid ++ us) := by
  obtain ⟨⟨first, hfirst, hopens⟩, _⟩ := h
  obtain ⟨_, last, hlast, hcloses⟩ := h'
  refine ⟨⟨first, ?_, hopens⟩, last, ?_, hcloses⟩
  · rw [List.append_assoc]
    exact List.mem_head?_append_of_mem_head? hfirst
  · exact List.mem_getLast?_append_of_mem_getLast? hlast

theorem prepend {first : Token} (hfirst : first.kind.opens = true) {us : List Token}
    (h : Framed us) (mid : List Token) : Framed (first :: (mid ++ us)) := by
  obtain ⟨_, last, hlast, hcloses⟩ := h
  refine ⟨⟨first, rfl, hfirst⟩, last, ?_, hcloses⟩
  rw [← List.cons_append]
  exact List.mem_getLast?_append_of_mem_getLast? hlast

theorem ne_nil {ts : List Token} (h : Framed ts) : ts ≠ [] := by
  rintro rfl
  obtain ⟨⟨t, ht, _⟩, _⟩ := h
  cases ht

end Token.Framed

namespace Derives

variable {loose : Bool} {N : Nonterminal} {ts : List Token} {nodes : List Node}

/-- All that derives but a whole fragment starts and ends as a statement may. -/
theorem framed (h : Derives loose N ts nodes) (hN : N ≠ .fragment) : Framed ts := by
  induction h with
  | blank | fragment => exact absurd rfl hN
  | single _ ih | definition _ ih | evaluation _ ih | choice _ ih | operators _ ih | tighter _ ih
  | tightest _ ih | primary _ ih | selection _ ih | argument _ ih => exact ih (by simp)
  | sequence _ _ _ _ ih ih' => exact (ih (by simp)).append (ih' (by simp)) _
  | arguments _ _ _ ih ih' => exact (ih (by simp)).append (ih' (by simp)) _
  | operation _ _ _ ih ih' => exact (ih (by simp)).append (ih' (by simp)) _
  | function hword _ _ _ _ _ _ _ hright =>
      rw [← List.append_assoc]
      exact .between (by rw [hword]; rfl) (by rw [hright]; rfl) _
  | conditional hword _ _ _ _ _ _ ih =>
      exact .prepend (TokenKind.opens_of_conditionalForm hword) (ih (by simp)) _
  | negation hsign _ ih => exact .prepend (by rw [hsign]; rfl) (ih (by simp)) []
  | least hsign hnumber => exact .between (by rw [hsign]; rfl) (by rw [hnumber]; rfl) []
  | literal h =>
      have hkind := Token.literal_isLiteral h
      exact .single (TokenKind.opens_of_isLiteral hkind) (TokenKind.closes_of_isLiteral hkind)
  | name h => exact .single (by rw [h]; rfl) (by rw [h]; rfl)
  | callEmpty hcallee _ hclosing =>
      exact .between (by rw [hcallee]; rfl) (by rw [hclosing]; rfl) [_]
  | call hcallee _ _ hclosing => exact .between (by rw [hcallee]; rfl) (by rw [hclosing]; rfl) _
  | callTrailing _ hcallee _ _ _ hclosing =>
      rw [List.append_cons]
      exact .between (by rw [hcallee]; rfl) (by rw [hclosing]; rfl) _
  | parentheses hopening _ hclosing =>
      exact .between (by rw [hopening]; rfl) (by rw [hclosing]; rfl) _

/-- Operands of a level are operands of every lower one. -/
theorem loosen {level level' : Nat} (h : Derives loose (.binary level') ts nodes)
    (hle : level ≤ level') : Derives loose (.binary level) ts nodes := by
  induction hle with
  | refl => exact h
  | step _ ih => exact ih h.tighter

end Derives

/-! ## Trailing commas -/

namespace Token

/-- No comma stands directly before a closing parenthesis. -/
def NoTrailingComma (ts : List Token) : Prop :=
  ts.IsChain fun a b => ¬ (a.kind = .comma ∧ b.kind = .rParen)

instance (ts : List Token) : Decidable (NoTrailingComma ts) :=
  inferInstanceAs (Decidable (List.IsChain _ _))

theorem NoTrailingComma.left {ts us : List Token} (h : NoTrailingComma (ts ++ us)) :
    NoTrailingComma ts :=
  h.left_of_append

theorem NoTrailingComma.right {ts us : List Token} (h : NoTrailingComma (ts ++ us)) :
    NoTrailingComma us :=
  h.right_of_append

/-- Nor does a comma stand at the end, so that anything may follow. -/
def Punctuated (ts : List Token) : Prop :=
  NoTrailingComma ts ∧ ∀ t ∈ ts.getLast?, t.kind ≠ .comma

namespace Punctuated

variable {ts us : List Token} {t : Token}

theorem single (h : t.kind ≠ .comma) : Punctuated [t] := by
  refine ⟨List.isChain_singleton t, fun u hu => ?_⟩
  obtain rfl : t = u := Option.some.inj hu
  exact h

theorem append (h : Punctuated ts) (h' : Punctuated us) : Punctuated (ts ++ us) := by
  refine ⟨List.isChain_append.mpr ⟨h.1, h'.1, fun a ha b _ hab => h.2 a ha hab.1⟩, fun t ht => ?_⟩
  rw [List.getLast?_append] at ht
  rcases Option.or_eq_some_iff.mp ht with ht | ⟨_, ht⟩
  · exact h'.2 t ht
  · exact h.2 t ht

/-- No list of tokens without commas has one in the wrong place. -/
theorem of_forall (h : ∀ t ∈ ts, t.kind ≠ .comma) : Punctuated ts := by
  induction ts with
  | nil => exact ⟨List.isChain_nil, fun t ht => nomatch ht⟩
  | cons t rest ih =>
      obtain ⟨ht, hrest⟩ := List.forall_mem_cons.mp h
      exact (single ht).append (ih hrest)

theorem separators (h : Separators ts) : Punctuated ts := by
  refine of_forall fun t ht hkind => ?_
  have hsep := h t ht
  rw [hkind] at hsep
  cases hsep

/-- After a comma come tokens that do not start with a parenthesis. -/
theorem comma (h : Punctuated ts) (h' : Punctuated us) (hus : Framed us) (t : Token) :
    Punctuated (ts ++ [t] ++ us) := by
  obtain ⟨⟨first, hfirst, hopens⟩, _⟩ := hus
  have htail : NoTrailingComma ([t] ++ us) := by
    refine List.isChain_append.mpr ⟨List.isChain_singleton t, h'.1, fun a _ b hb hab => ?_⟩
    obtain rfl : first = b := Option.some.inj (hfirst.symm.trans hb)
    rw [hab.2] at hopens
    cases hopens
  refine ⟨?_, fun u hu => ?_⟩
  · rw [List.append_assoc]
    exact List.isChain_append.mpr ⟨h.1, htail, fun a ha b _ hab => h.2 a ha hab.1⟩
  · have hne : us.getLast?.isSome := by
      cases us with
      | nil => cases hfirst
      | cons => simp
    rw [List.getLast?_append, Option.or_of_isSome hne] at hu
    exact h'.2 u hu

end Punctuated

end Token

open Token (NoTrailingComma Punctuated)

namespace Derives

variable {N : Nonterminal} {ts : List Token} {nodes : List Node}

/-- What the strict grammar derives has no trailing comma. -/
theorem punctuated (h : Derives false N ts nodes) : Punctuated ts := by
  have kept : ∀ {t : Token} {kind : TokenKind}, t.kind = kind → kind ≠ .comma → Punctuated [t] :=
    fun ht hne => .single (ht ▸ hne)
  induction h with
  | single _ ih | definition _ ih | evaluation _ ih | choice _ ih | operators _ ih | tighter _ ih
  | tightest _ ih | primary _ ih | selection _ ih | argument _ ih => exact ih
  | blank hseps hlast => exact (Punctuated.separators hseps).append (kept hlast (by simp))
  | fragment hbefore _ hafter hlast ih =>
      exact (((Punctuated.separators hbefore).append ih).append (.separators hafter)).append
        (kept hlast (by simp))
  | sequence _ hseps _ _ ih ih' => exact (ih.append (.separators hseps)).append ih'
  | function hword hname hopening hclosing hleft hbefore _ hafter hright ih =>
      refine .append (.of_forall ?_) ((((Punctuated.separators hbefore).append ih).append
        (.separators hafter)).append (kept hright (by simp)))
      simp [hword, hname, hopening, hclosing, hleft]
  | conditional hword _ _ hmid _ ih ih' ih'' =>
      refine (((Punctuated.append (.single ?_) ih).append ih').append
        (kept hmid (by simp))).append ih''
      intro hcomma
      rw [hcomma] at hword
      cases hword
  | operation _ hsign _ ih ih' =>
      refine (ih.append (.single ?_)).append ih'
      intro hcomma
      rw [hcomma] at hsign
      cases hsign
  | negation hsign _ ih => exact (kept hsign (by simp)).append ih
  | least hsign hnumber => exact .of_forall (by simp [hsign, hnumber])
  | literal h =>
      refine .single fun hcomma => ?_
      have hliteral := Token.literal_isLiteral h
      rw [hcomma] at hliteral
      cases hliteral
  | name h => exact kept h (by simp)
  | callEmpty hcallee hopening hclosing =>
      exact .of_forall (by simp [hcallee, hopening, hclosing])
  | call hcallee hopening _ hclosing ih =>
      exact (Punctuated.append (.of_forall (by simp [hcallee, hopening])) ih).append
        (kept hclosing (by simp))
  | callTrailing hloose => cases hloose
  | parentheses hopening _ hclosing ih =>
      exact ((kept hopening (by simp)).append ih).append (kept hclosing (by simp))
  | arguments _ _ hrest ih ih' => exact ih.comma ih' (hrest.framed (by simp)) _

/-- Without a trailing comma the strict grammar derives the same. -/
theorem strict (h : Derives true N ts nodes) (hts : NoTrailingComma ts) :
    Derives false N ts nodes := by
  induction h with
  | blank hseps hlast => exact .blank hseps hlast
  | fragment hbefore _ hafter hlast ih =>
      exact .fragment hbefore (ih hts.left.left.right) hafter hlast
  | single _ ih => exact .single (ih hts)
  | sequence _ hseps hne _ ih ih' => exact .sequence (ih hts.left.left) hseps hne (ih' hts.right)
  | definition _ ih => exact .definition (ih hts)
  | evaluation _ ih => exact .evaluation (ih hts)
  | function hword hname hopening hclosing hleft hbefore _ hafter hright ih =>
      exact .function hword hname hopening hclosing hleft hbefore
        (ih hts.right.left.left.right) hafter hright
  | choice _ ih => exact .choice (ih hts)
  | operators _ ih => exact .operators (ih hts)
  | conditional hword _ _ hmid _ ih ih' ih'' =>
      exact .conditional hword (ih hts.left.left.left.right) (ih' hts.left.left.right) hmid
        (ih'' hts.right)
  | operation _ hsign _ ih ih' => exact .operation (ih hts.left.left) hsign (ih' hts.right)
  | tighter _ ih => exact .tighter (ih hts)
  | tightest _ ih => exact .tightest (ih hts)
  | negation hsign _ ih => exact .negation hsign (ih hts.right)
  | least hsign hnumber hleast => exact .least hsign hnumber hleast
  | primary _ ih => exact .primary (ih hts)
  | literal h => exact .literal h
  | name h => exact .name h
  | callEmpty hcallee hopening hclosing => exact .callEmpty hcallee hopening hclosing
  | call hcallee hopening _ hclosing ih =>
      exact .call hcallee hopening (ih hts.left.right) hclosing
  | callTrailing _ _ _ _ hcomma hclosing =>
      exact absurd ⟨hcomma, hclosing⟩ (List.isChain_pair.mp hts.right)
  | parentheses hopening _ hclosing ih => exact .parentheses hopening (ih hts.left.right) hclosing
  | selection _ ih => exact .selection (ih hts)
  | argument _ ih => exact .argument (ih hts)
  | arguments _ hcomma _ ih ih' => exact .arguments (ih hts.left.left) hcomma (ih' hts.right)

end Derives

end ScalarLang
