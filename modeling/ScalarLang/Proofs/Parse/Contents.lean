import Mathlib
import ScalarLang.Proofs.Parse.Derivations
import ScalarLang.Proofs.Parse.Printer
import ScalarLang.Proofs.Token.Proper

/-
  The contents of a source.
  Parentheses, braces, commas and separators say how a source is put together; all other tokens are
  a part of the tree. Walking through the tree in the order of the source lists what these tokens
  have to be, and the list is that of the tokens.
-/

namespace ScalarLang

/-- What a tree asks of a token: that it is a lexeme, or spells a literal in any way. -/
inductive Item where
  | lexeme (l : Lexeme)
  | literal (value : Literal)
deriving DecidableEq

def Item.StandsFor : Item → Token → Prop
  | .lexeme l, t => t.erase = l
  | .literal value, t => value.SpelledBy t.erase

mutual

/-- The tokens of a tree in the order of the source. The least signed integer has two, for it is
    written with a minus. -/
def Node.items : Node → List Item
  | .literal _ value => (if value = .least then [.lexeme .minus] else []) ++ [.literal value]
  | .name _ text => [.lexeme (.word text)]
  | .binary _ op lhs rhs => lhs.items ++ [.lexeme op.lexeme] ++ rhs.items
  | .negate _ operand => [.lexeme .minus] ++ operand.items
  | .conditional _ form test thenArm elseArm =>
    [.lexeme form.lexeme] ++ test.items ++ thenArm.items ++ [.lexeme .elseWord] ++ elseArm.items
  | .function _ ident params body =>
    [.lexeme .defWord, .lexeme (.word ident.text)] ++
      (params.map fun p => .lexeme (.word p.text)) ++ Node.allItems body
  | .call _ callee args => [.lexeme (.word callee.text)] ++ Node.allItems args

def Node.allItems : List Node → List Item
  | [] => []
  | node :: rest => node.items ++ Node.allItems rest

end

/-- Kinds that are no part of the tree. -/
def TokenKind.isPunctuation : TokenKind → Bool
  | lParen | rParen | lBrace | rBrace | comma | newline | semicolon | comment | eof => true
  | _ => false

/-- The tokens of a source without punctuation and comments. -/
def Token.contents (source : String) : List Token :=
  (tokenize source).filter (!·.kind.isPunctuation)

/-- A token as scans give it. -/
structure Token.Scanned (t : Token) : Prop where
  proper : t.erase.isProper = true
  spelled : t.kind.isFixed = true → t.lexeme = t.kind.text

namespace Token.Scanned

variable {t : Token}

theorem of_mem_scan {source : String} (h : t ∈ scan source) : t.Scanned :=
  ⟨scanFrom_proper _ _ t h, scanFrom_spells _ _ t h⟩

theorem erase_eq (ht : t.Scanned) {l : Lexeme} (hkind : t.kind = l.kind)
    (hfixed : l.kind.isFixed = true) (htext : l.text = l.kind.text) : t.erase = l := by
  obtain ⟨kind, text⟩ := l
  obtain rfl : t.kind = kind := hkind
  rw [erase, ht.spelled hfixed, ← htext]

end Token.Scanned

/-- A number token never spells the least signed integer by itself. -/
theorem Token.literal_ne_least {t : Token} {value : Literal} (h : t.literal? = some (.ok value)) :
    value ≠ .least := by
  rintro rfl
  unfold literal? at h
  split at h <;> simp only [Option.some.injEq, Except.ok.injEq, reduceCtorEq, Literal.least] at h
  · unfold NumberToken.signed at h
    dsimp only at h
    split at h
    · rename_i hlt
      have hnat := congrArg BitVec.toNat (Literal.signed.inj (Except.ok.inj h))
      rw [BitVec.toNat_ofNat, BitVec.toNat_intMin] at hnat
      simp only [Nat.pow_eq] at hlt
      omega
    · cases h
  · unfold NumberToken.unsigned at h
    dsimp only at h
    split at h <;> cases h
  · unfold NumberToken.float at h
    dsimp only at h
    split at h <;> cases h

/-- If scans give the tokens that are no punctuation then they stand for the items. -/
def Lists (ts : List Token) (items : List Item) : Prop :=
  (∀ t ∈ ts, t.kind.isPunctuation = false → t.Scanned) →
    List.Forall₂ Item.StandsFor items (ts.filter (!·.kind.isPunctuation))

namespace Lists

variable {ts us : List Token} {items others : List Item} {t : Token}

theorem append (h : Lists ts items) (h' : Lists us others) :
    Lists (ts ++ us) (items ++ others) := by
  intro hscanned
  obtain ⟨hts, hus⟩ := List.forall_mem_append.mp hscanned
  rw [List.filter_append]
  exact List.rel_append (h hts) (h' hus)

theorem skip (h : Lists ts items) (h' : Lists us []) : Lists (ts ++ us) items := by
  have happend := h.append h'
  rwa [List.append_nil] at happend

theorem punctuation (h : ∀ t ∈ ts, t.kind.isPunctuation = true) : Lists ts [] := by
  intro _
  rw [List.filter_eq_nil_iff.mpr fun t ht => by simp [h t ht]]
  exact .nil

theorem separators (h : Token.Separators ts) : Lists ts [] := by
  refine punctuation fun t ht => ?_
  have hkind := h t ht
  revert hkind
  cases t.kind <;> simp [TokenKind.isSeparator, TokenKind.isPunctuation]

theorem mark {kind : TokenKind} (hkind : t.kind = kind) (h : kind.isPunctuation = true) :
    Lists [t] [] :=
  punctuation (by simp [hkind, h])

theorem single {item : Item} (h : t.Scanned → item.StandsFor t)
    (hkind : t.kind.isPunctuation = false) :
    Lists [t] [item] := by
  intro hscanned
  have ht := hscanned t (List.mem_singleton_self t) hkind
  rw [List.filter_cons_of_pos (by simp [hkind])]
  exact .cons (h ht) .nil

theorem lexeme {l : Lexeme} (hkind : t.kind = l.kind) (hfixed : l.kind.isFixed = true)
    (htext : l.text = l.kind.text) (h : l.kind.isPunctuation = false) : Lists [t] [.lexeme l] :=
  single (fun ht => ht.erase_eq hkind hfixed htext) (hkind ▸ h)

theorem word (h : t.kind = .ident) : Lists [t] [.lexeme (.word t.lexeme)] :=
  single (fun _ => by rw [Item.StandsFor, Token.erase, h]; rfl) (by rw [h]; rfl)

theorem literal {value : Literal}
    (h : if value = .least then t.kind = .int ∧ NumberToken.isMinMagnitude t.lexeme = true
      else t.literal? = some (.ok value))
    (hkind : t.kind.isLiteral = true) : Lists [t] [.literal value] := by
  refine single (fun ht => ⟨ht.proper, h⟩) ?_
  revert hkind
  cases t.kind <;> simp [TokenKind.isLiteral, TokenKind.isPunctuation]

theorem operator {op : BinaryOp} (h : t.kind.binaryOp? = some op) :
    Lists [t] [.lexeme op.lexeme] := by
  have hkind : t.kind = op.kind := by
    revert h
    cases t.kind <;>
      simp only [TokenKind.binaryOp?, reduceCtorEq, Option.some.injEq, false_implies] <;>
      rintro rfl <;> rfl
  cases op <;> exact .lexeme hkind rfl rfl rfl

theorem conditionalForm {form : ConditionalForm} (h : t.kind.conditionalForm? = some form) :
    Lists [t] [.lexeme form.lexeme] := by
  have hkind : t.kind = form.kind := by
    revert h
    cases t.kind <;> simp only [TokenKind.conditionalForm?, reduceCtorEq, Option.some.injEq,
      false_implies] <;> rintro rfl <;> rfl
  cases form <;> exact .lexeme hkind rfl rfl rfl

end Lists

theorem Derives.lists {loose : Bool} {N : Nonterminal} {ts : List Token} {nodes : List Node}
    (h : Derives loose N ts nodes) : Lists ts (Node.allItems nodes) := by
  induction h with
  | blank hseps hlast => exact (Lists.separators hseps).skip (.mark hlast rfl)
  | fragment hbefore _ hafter hlast ih =>
      have hlines := (Lists.separators hbefore).append ih
      exact (hlines.skip (.separators hafter)).skip (.mark hlast rfl)
  | single _ ih | definition _ ih | evaluation _ ih | choice _ ih | operators _ ih | tighter _ ih
  | tightest _ ih | primary _ ih | selection _ ih | argument _ ih => exact ih
  | sequence _ hseps _ _ ih ih' =>
      simp only [Node.allItems, List.append_nil] at ih ⊢
      exact (ih.skip (.separators hseps)).append ih'
  | function hword hname hopening hclosing hleft hbefore _ hafter hright ih =>
      simp only [Node.allItems, Node.items, List.map_nil, List.append_nil]
      have hhead := (Lists.lexeme (l := .defWord) hword rfl rfl rfl).append (.word hname)
      have hmarks := ((Lists.mark hopening rfl).skip (.mark hclosing rfl)).skip (.mark hleft rfl)
      have hbody := (((Lists.separators hbefore).append ih).skip (.separators hafter)).skip
        (.mark hright rfl)
      exact (hhead.skip hmarks).append hbody
  | conditional hword _ _ hmid _ ih ih' ih'' =>
      simp only [Node.allItems, Node.items, List.append_nil] at ih ih' ih'' ⊢
      exact ((((Lists.conditionalForm hword).append ih).append ih').append
        (.lexeme (l := .elseWord) hmid rfl rfl rfl)).append ih''
  | operation _ hsign _ ih ih' =>
      simp only [Node.allItems, Node.items, List.append_nil] at ih ih' ⊢
      exact (ih.append (.operator hsign)).append ih'
  | negation hsign _ ih =>
      simp only [Node.allItems, Node.items, List.append_nil] at ih ⊢
      exact (Lists.lexeme (l := .minus) hsign rfl rfl rfl).append ih
  | least hsign hnumber hleast =>
      have hvalue : Literal.signed (BitVec.intMin 64) = .least := rfl
      simp only [Node.allItems, Node.items, List.append_nil]
      rw [if_pos hvalue]
      exact (Lists.lexeme (l := .minus) hsign rfl rfl rfl).append
        (.literal (by rw [if_pos hvalue]; exact ⟨hnumber, hleast⟩) (by rw [hnumber]; rfl))
  | literal h =>
      simp only [Node.allItems, Node.items, List.append_nil]
      have hleast := Token.literal_ne_least h
      rw [if_neg hleast]
      exact .literal (by rw [if_neg hleast]; exact h) (Token.literal_isLiteral h)
  | name h => exact .word h
  | callEmpty hcallee hopening hclosing =>
      exact (Lists.word hcallee).skip ((Lists.mark hopening rfl).skip (.mark hclosing rfl))
  | call hcallee hopening _ hclosing ih =>
      simp only [Node.allItems, Node.items, List.append_nil]
      exact (((Lists.word hcallee).skip (.mark hopening rfl)).append ih).skip (.mark hclosing rfl)
  | callTrailing _ hcallee hopening _ hcomma hclosing ih =>
      simp only [Node.allItems, Node.items, List.append_nil]
      exact (((Lists.word hcallee).skip (.mark hopening rfl)).append ih).skip
        ((Lists.mark hcomma rfl).skip (.mark hclosing rfl))
  | parentheses hopening _ hclosing ih =>
      exact ((Lists.mark hopening rfl).append ih).skip (.mark hclosing rfl)
  | arguments _ hcomma _ ih ih' =>
      simp only [Node.allItems, List.append_nil] at ih ⊢
      exact (ih.skip (.mark hcomma rfl)).append ih'

theorem Token.contents_eq (source : String) :
    contents source = (significant source).filter (!·.kind.isPunctuation) := by
  rw [contents, significant, List.filter_filter]
  congr 1
  funext t
  cases t.kind <;> rfl

/-- Nothing is lost, nothing comes twice and nothing changes its place: the tokens of a source that
    is accepted, without punctuation and comments, are those that its tree lists. -/
theorem accepted_source_contents {source : String} {f : Fragment}
    (h : Fragment.parse source = .ok f) :
    List.Forall₂ Item.StandsFor (Node.allItems f.nodes) (Token.contents source) := by
  have hscanned : ∀ t ∈ Token.significant source, t.kind.isPunctuation = false → t.Scanned := by
    intro t ht hkind
    rcases List.mem_append.mp (List.mem_of_mem_filter ht) with hscan | hend
    · exact .of_mem_scan hscan
    · rw [List.mem_singleton.mp hend] at hkind
      cases hkind
  rw [Token.contents_eq]
  exact (Fragment.parse_derives h).lists hscanned

theorem nestedSource_contents : ∃ f, Fragment.parse nestedSource = .ok f ∧
    (Token.contents nestedSource).map Token.lexeme =
      ["def", "f", "-", "9223372036854775808", "1", "when", "f", "==", "-", "2", "f", "else", "g",
        "1", "h", "2", "*", "3", "+", "4", "<<", "5"] ∧
    List.Forall₂ Item.StandsFor (Node.allItems f.nodes) (Token.contents nestedSource) := by
  have hok : (Fragment.parse nestedSource).toOption.isSome = true := by decide +kernel
  rcases hf : Fragment.parse nestedSource with errors | f
  · rw [hf] at hok
    cases hok
  · exact ⟨f, rfl, by decide +kernel, accepted_source_contents hf⟩

end ScalarLang
