import Mathlib
import ScalarLang.Proofs.Decimal.Numeral
import ScalarLang.Proofs.Parse.Refusal
import ScalarLang.Proofs.Session.Fresh

/-
  Integer literals at their limits.
  Digits are a literal exactly if the number they stand for fits the type, however they are
  spelled, and otherwise they are reported where they stand. One number does not fit and is read
  all the same: `2 ^ 63` directly after a unary minus, together with the minus.
-/

namespace ScalarLang

/-! ## Numerals -/

/-- Digits and underscores that start with a digit. -/
def IsNumeral (cs : List Char) : Prop :=
  ∃ d ds, cs = d :: ds ∧ d.isDigit = true ∧ ∀ c ∈ ds, isDigitChar c = true

/-- The number that the digits stand for in base ten. Underscores do not count. -/
def numeralValue (cs : List Char) : Nat :=
  Nat.ofDigits 10 ((cs.filter Char.isDigit).reverse.map fun c => c.toNat - '0'.toNat)

theorem Decimal.ofDigits_eq_sum (cs : List Char) :
    ofDigits cs = Nat.ofDigits 10 (cs.reverse.map fun c => c.toNat - '0'.toNat) := by
  induction cs using List.reverseRecOn with
  | nil => rfl
  | append_singleton cs c ih =>
      have hlast : ofDigits (cs ++ [c]) = 10 * ofDigits cs + (c.toNat - '0'.toNat) := by
        rw [ofDigits, List.foldl_append]
        rfl
      rw [hlast, ih, List.reverse_append, List.reverse_singleton, List.singleton_append,
        List.map_cons, Nat.ofDigits_cons]
      exact Nat.add_comm _ _

/-- A digit and what belongs to its number are one token. -/
theorem Token.scanFrom_number {d : Char} {ds : List Char} {kind : TokenKind}
    (hd : d.isDigit = true) (h : munchNumber ds = (kind, ds.length)) (pos : Nat) :
    scanFrom pos (d :: ds) =
      [⟨kind, ⟨pos, pos + byteLength (d :: ds)⟩, String.ofList (d :: ds)⟩] := by
  have hblank : isBlank d = false := by
    simp only [isBlank, Bool.or_eq_false_iff, beq_eq_false_iff_ne]
    refine ⟨⟨?_, ?_⟩, ?_⟩ <;> rintro rfl <;> exact absurd hd (by decide)
  have hmunch : munch d ds = (kind, ds.length) := by rw [munch_of_isDigit hd, h]
  have hnil (pos : Nat) : scanFrom pos [] = [] := by rw [scanFrom]
  rw [scanFrom]
  simp only [hblank, Bool.false_eq_true, if_false, hmunch, List.take_length, List.drop_length, hnil]

namespace IsNumeral

variable {cs : List Char} {c : Char}

theorem digitChars (h : IsNumeral cs) : ∀ c ∈ cs, isDigitChar c = true := by
  obtain ⟨d, ds, rfl, hd, hds⟩ := h
  refine List.forall_mem_cons.mpr ⟨?_, hds⟩
  rw [isDigitChar, hd, Bool.true_or]

theorem filter_eq (h : IsNumeral cs) : cs.filter (· != '_') = cs.filter Char.isDigit := by
  refine List.filter_congr fun c hc => ?_
  have hdigit := h.digitChars c hc
  by_cases hunder : c = '_'
  · subst hunder
    rfl
  · simp only [isDigitChar, beq_false_of_ne hunder, Bool.or_false] at hdigit
    rw [hdigit, bne_iff_ne]
    exact hunder

theorem ofDigits_filter (h : IsNumeral cs) :
    Decimal.ofDigits (cs.filter (· != '_')) = numeralValue cs := by
  rw [h.filter_eq, Decimal.ofDigits_eq_sum, numeralValue]

theorem signed (h : IsNumeral cs) :
    NumberToken.signed (String.ofList cs) =
      if numeralValue cs < 2 ^ 63 then .ok (.signed (BitVec.ofNat 64 (numeralValue cs)))
      else .error (.signedRange (String.ofList cs)) := by
  rw [NumberToken.signed, NumberToken.withoutUnderscores, String.toList_ofList, h.ofDigits_filter]
  rfl

theorem isMinMagnitude_iff (h : IsNumeral cs) :
    NumberToken.isMinMagnitude (String.ofList cs) = true ↔ numeralValue cs = 2 ^ 63 := by
  rw [NumberToken.isMinMagnitude, NumberToken.withoutUnderscores, String.toList_ofList,
    h.ofDigits_filter]
  exact beq_iff_eq

theorem unsigned (h : IsNumeral cs) (hc : c = 'u' ∨ c = 'U') :
    NumberToken.unsigned (String.ofList (cs ++ [c])) =
      if numeralValue cs < 2 ^ 64 then .ok (.unsigned (BitVec.ofNat 64 (numeralValue cs)))
      else .error (.unsignedRange (String.ofList (cs ++ [c]))) := by
  have hsuffix : [c].filter (· != '_') = [c] := by rcases hc with rfl | rfl <;> rfl
  rw [NumberToken.unsigned, NumberToken.withoutUnderscores, String.toList_ofList,
    List.filter_append, hsuffix, List.dropLast_concat, h.ofDigits_filter]
  rfl

/-- A numeral is one token together with what ends a number. -/
theorem scanFrom_append (h : IsNumeral cs) {tail : List Char} {kind : TokenKind}
    (hhead : Token.NoDigit tail) (htail : Token.numberTail tail = (kind, tail.length))
    (pos : Nat) :
    Token.scanFrom pos (cs ++ tail) =
      [⟨kind, ⟨pos, pos + byteLength (cs ++ tail)⟩, String.ofList (cs ++ tail)⟩] := by
  obtain ⟨d, ds, rfl, hd, hds⟩ := h
  have hmunch : Token.munchNumber (ds ++ tail) = (kind, (ds ++ tail).length) := by
    rw [Token.munchNumber_append_tail hds hhead, htail, List.length_append]
  exact Token.scanFrom_number hd hmunch pos

theorem scanFrom_int (h : IsNumeral cs) (pos : Nat) :
    Token.scanFrom pos cs = [⟨.int, ⟨pos, pos + byteLength cs⟩, String.ofList cs⟩] := by
  have htail : Token.numberTail [] = (.int, ([] : List Char).length) := rfl
  have hscan := h.scanFrom_append (by simp [Token.NoDigit]) htail pos
  rwa [List.append_nil] at hscan

theorem scanFrom_unsigned (h : IsNumeral cs) (hc : c = 'u' ∨ c = 'U') (pos : Nat) :
    Token.scanFrom pos (cs ++ [c]) =
      [⟨.unsigned, ⟨pos, pos + byteLength (cs ++ [c])⟩, String.ofList (cs ++ [c])⟩] := by
  refine h.scanFrom_append ?_ ?_ pos
  · rcases hc with rfl | rfl <;> simp [Token.NoDigit, isDigitChar]
  · rcases hc with rfl | rfl <;> rfl

end IsNumeral

theorem Token.scanFrom_blanks {blanks : List Char} (h : ∀ c ∈ blanks, isBlank c = true)
    (pos : Nat) (cs : List Char) :
    scanFrom pos (blanks ++ cs) = scanFrom (pos + byteLength blanks) cs := by
  induction blanks generalizing pos with
  | nil => rfl
  | cons c blanks ih =>
      obtain ⟨hc, hblanks⟩ := List.forall_mem_cons.mp h
      rw [List.cons_append, scanFrom, if_pos hc, ih hblanks, byteLength_cons, Nat.add_assoc]

/-! ## Literals in the trees -/

open Node (Occurs)
open Token (Each EndsInOperand EndsInSign)

/-- A number that is a literal by itself is not the one of the exception. -/
theorem Token.fits_of_literal {t : Token} {value : Literal} (hkind : t.kind = .int)
    (h : t.literal? = some (.ok value)) : NumberToken.isMinMagnitude t.lexeme = false := by
  simp only [literal?, hkind, NumberToken.signed, Option.some.injEq] at h
  split at h
  · rename_i hlt
    exact beq_false_of_ne hlt.ne
  · cases h

/-- The literal that the token stands for is in the trees. A number that does not fit stands there
    with the minus before it. -/
structure Bears (nodes : List Node) (before : List Token) (t : Token) : Prop where
  literal : ∀ value, t.literal? = some (.ok value) → Occurs nodes (.literal t.span value)
  least : ∀ why, t.literal? = some (.error why) → ∃ front sign, before = front ++ [sign] ∧
    Occurs nodes (.literal (sign.span.hull t.span) .least)

namespace Bears

variable {nodes others : List Node} {before ts : List Token} {t : Token}

theorem mono (h : ∀ n, Occurs nodes n → Occurs others n) (ht : Bears nodes before t) :
    Bears others before t where
  literal := fun value hvalue => h _ (ht.literal value hvalue)
  least := fun why hwhy => by
    obtain ⟨front, sign, hbefore, hoccurs⟩ := ht.least why hwhy
    exact ⟨front, sign, hbefore, h _ hoccurs⟩

theorem of_isLiteral (h : t.kind.isLiteral = false) (before : List Token) :
    Bears nodes before t := by
  constructor
  · intro value hvalue
    rw [Token.literal_isLiteral hvalue] at h
    cases h
  · intro why hwhy
    rw [Token.literal_isLiteral hwhy] at h
    cases h

theorem left (h : Each (Bears nodes) before ts) (others : List Node) :
    Each (Bears (nodes ++ others)) before ts :=
  h.mono fun _ _ => .mono fun _ hn => hn.mono (List.subset_append_left _ _)

theorem right (h : Each (Bears others) before ts) (nodes : List Node) :
    Each (Bears (nodes ++ others)) before ts :=
  h.mono fun _ _ => .mono fun _ hn => hn.mono (List.subset_append_right _ _)

/-- Nodes of a tree that are below a root. -/
theorem child {n : Node} (h : Each (Bears nodes) before ts) (hsub : nodes ⊆ n.children) :
    Each (Bears [n]) before ts :=
  h.mono fun _ _ => .mono fun _ hm => Node.occurs_singleton.mpr (.inr (hm.mono hsub))

/-- Tokens that are no literals. -/
theorem plain (h : ∀ t ∈ ts, t.kind.isLiteral = false) (before : List Token) :
    Each (Bears nodes) before ts :=
  Token.each_of_forall (fun t ht before => of_isLiteral (h t ht) before) before

theorem separators (h : Token.Separators ts) (before : List Token) :
    Each (Bears nodes) before ts :=
  plain (fun t ht => TokenKind.isLiteral_of_isSeparator (h t ht)) before

end Bears

/-- Whatever derives, the literals that its tokens stand for are in its trees. -/
theorem Derives.bears {loose : Bool} {N : Nonterminal} {ts : List Token} {nodes : List Node}
    (h : Derives loose N ts nodes) (before : List Token) : Each (Bears nodes) before ts := by
  induction h generalizing before with
  | single _ ih | definition _ ih | evaluation _ ih | choice _ ih | operators _ ih | tighter _ ih
  | tightest _ ih | primary _ ih | selection _ ih | argument _ ih => exact ih before
  | blank hseps hlast =>
      refine Token.each_append.mpr ⟨Bears.separators hseps before, Bears.plain ?_ _⟩
      simp [hlast, TokenKind.isLiteral]
  | fragment hbefore _ hafter hlast ih =>
      simp only [Token.each_append]
      refine ⟨⟨⟨Bears.separators hbefore _, ih _⟩, Bears.separators hafter _⟩, Bears.plain ?_ _⟩
      simp [hlast, TokenKind.isLiteral]
  | sequence _ hseps _ _ ih ih' =>
      simp only [Token.each_append]
      exact ⟨⟨Bears.left (ih _) _, Bears.separators hseps _⟩, Bears.right (ih' _) [_]⟩
  | arguments _ hcomma _ ih ih' =>
      simp only [Token.each_append]
      refine ⟨⟨Bears.left (ih _) _, Bears.plain ?_ _⟩, Bears.right (ih' _) [_]⟩
      simp [hcomma, TokenKind.isLiteral]
  | function hword hname hopening hclosing hleft hbefore _ hafter hright ih =>
      simp only [Token.each_append]
      refine ⟨Bears.plain ?_ _, ⟨⟨Bears.separators hbefore _, Bears.child (ih _) ?_⟩,
        Bears.separators hafter _⟩, Bears.plain ?_ _⟩
      · simp [hword, hname, hopening, hclosing, hleft, TokenKind.isLiteral]
      · exact List.Subset.refl _
      · simp [hright, TokenKind.isLiteral]
  | @conditional word mid form ts us vs test thenArm elseArm hword _ _ hmid _ ih ih' ih'' =>
      simp only [Token.each_append]
      refine ⟨⟨⟨⟨Bears.plain ?_ _, Bears.child (ih _) ?_⟩, Bears.child (ih' _) ?_⟩,
        Bears.plain ?_ _⟩, Bears.child (ih'' _) ?_⟩
      · have hkind : word.kind.isLiteral = false := by
          revert hword
          cases word.kind <;> simp [TokenKind.conditionalForm?, TokenKind.isLiteral]
        simpa using hkind
      · simp [Node.children]
      · simp [Node.children]
      · simp [hmid, TokenKind.isLiteral]
      · simp [Node.children]
  | operation _ hsign _ ih ih' =>
      simp only [Token.each_append]
      refine ⟨⟨Bears.child (ih _) ?_, Bears.plain ?_ _⟩, Bears.child (ih' _) ?_⟩
      · simp [Node.children]
      · simpa using TokenKind.isLiteral_of_binaryOp hsign
      · simp [Node.children]
  | negation hsign _ ih =>
      refine Token.each_append.mpr ⟨Bears.plain ?_ _, Bears.child (ih _) ?_⟩
      · simp [hsign, TokenKind.isLiteral]
      · simp [Node.children]
  | @least sign number hsign hnumber hleast =>
      refine ⟨.of_isLiteral (by rw [hsign]; rfl) before, ⟨?_, fun why _ => ?_⟩, trivial⟩
      · -- By itself the number does not fit.
        intro value hvalue
        exact absurd (Token.fits_of_literal hnumber hvalue) (by simp [hleast])
      · exact ⟨before, sign, rfl, .root (List.mem_singleton_self _)⟩
  | @literal t value hvalue =>
      refine Token.each_singleton.mpr ⟨fun value' hvalue' => ?_, fun why hwhy => ?_⟩
      · cases hvalue.symm.trans hvalue'
        exact .root (List.mem_singleton_self _)
      · cases hvalue.symm.trans hwhy
  | name hkind => exact Bears.plain (by simp [hkind, TokenKind.isLiteral]) _
  | callEmpty hcallee hopening hclosing =>
      exact Bears.plain (by simp [hcallee, hopening, hclosing, TokenKind.isLiteral]) _
  | call hcallee hopening _ hclosing ih =>
      simp only [Token.each_append]
      refine ⟨⟨Bears.plain ?_ _, Bears.child (ih _) (List.Subset.refl _)⟩, Bears.plain ?_ _⟩
      · simp [hcallee, hopening, TokenKind.isLiteral]
      · simp [hclosing, TokenKind.isLiteral]
  | callTrailing _ hcallee hopening _ hcomma hclosing ih =>
      simp only [Token.each_append]
      refine ⟨⟨Bears.plain ?_ _, Bears.child (ih _) (List.Subset.refl _)⟩, Bears.plain ?_ _⟩
      · simp [hcallee, hopening, TokenKind.isLiteral]
      · simp [hcomma, hclosing, TokenKind.isLiteral]
  | parentheses hopening _ hclosing ih =>
      simp only [Token.each_append]
      refine ⟨⟨Bears.plain ?_ _, ih _⟩, Bears.plain ?_ _⟩
      · simp [hopening, TokenKind.isLiteral]
      · simp [hclosing, TokenKind.isLiteral]

/-! ## Numbers of a source -/

/-- Tokens in order are told apart by their places. -/
theorem Token.InOrder.unique {ts before after front rest : List Token} {t u : Token}
    (hts : InOrder ts) (ht : ts = before ++ t :: after) (hu : ts = front ++ u :: rest)
    (hspan : u.span = t.span) : front = before ∧ u = t := by
  have hsolid := hts.solid t (by simp [ht])
  obtain ⟨-, hafter, hbefore⟩ := inOrder_append.mp (ht ▸ hts)
  rcases split_append (ht.symm.trans hu) with ⟨more, rfl⟩ | ⟨more, rfl, hmore⟩
  · have hle := hbefore u (by simp) t (by simp)
    rw [hspan] at hle
    omega
  · cases more with
    | nil => exact ⟨List.append_nil _, (List.cons.inj hmore).1.symm⟩
    | cons v more =>
        obtain ⟨rfl, rfl⟩ := List.cons.inj hmore
        have hmem : u ∈ more ++ u :: rest := by simp
        have hle := List.rel_of_pairwise_cons hafter.ordered hmem
        rw [hspan] at hle
        omega

/-- A token that is no end marker is one that the parser sees. -/
theorem Token.tokens_of_significant {source : String} {before after : List Token} {t : Token}
    (h : significant source = before ++ t :: after) (ht : t.kind ≠ .eof) :
    ∃ rest, (Stream.ofSource source).tokens = before ++ t :: rest := by
  rw [significant_eq] at h
  rcases split_append h with hrest | ⟨more, -, hmore⟩
  · exact hrest
  · cases more with
    | nil => exact absurd (congrArg Token.kind (List.cons.inj hmore).1.symm) ht
    | cons u more => simp at hmore

namespace Fragment

/-- The token is read as a literal: the literal stands in the trees if the source is accepted, and
    otherwise no error is about the number. -/
structure Reads (source : String) (t : Token) (span : Span) (value : Literal) : Prop where
  occurs : ∀ f, parse source = .ok f → Occurs f.nodes (.literal span value)
  silent : ∀ errors, parse source = .error errors → ∀ e ∈ errors, ∀ why,
    e.kind = .invalidNumber why → e.span ≠ t.span

/-- The source is not accepted. If all its characters are known then there is an error at the token,
    or an error of the same statement comes before. -/
def Rejects (source : String) (t : Token) : Prop :=
  ∃ errors, parse source = .error errors ∧ (Token.lexErrors source = [] →
    ∃ e ∈ errors, e.span = t.span ∨ e.Hides (Token.significant source) t)

variable {source : String} {before after : List Token} {t : Token}

theorem silent_of_accepted (h : (Stream.ofSource source).tokens = before ++ t :: after)
    (ht : t.Accepted before) : ∀ errors, parse source = .error errors → ∀ e ∈ errors, ∀ why,
      e.kind = .invalidNumber why → e.span ≠ t.span := by
  intro es hes e he why hkind hspan
  obtain ⟨-, rfl⟩ := parse_error_iff.mp hes
  by_cases hlex : Token.lexErrors source = []
  · obtain ⟨front, u, rest, hu, hrefused, hspan'⟩ := (errors_report hlex).sound e he why hkind
    obtain ⟨rfl, rfl⟩ :=
      (Stream.ofSource_inOrder source).unique h hu (hspan'.symm.trans hspan)
    exact ht why hrefused
  · rw [errors, if_neg hlex] at he
    obtain ⟨lexError, -, rfl⟩ := List.mem_map.mp he
    cases hkind

theorem bears (h : (Stream.ofSource source).tokens = before ++ t :: after) {f : Fragment}
    (hf : parse source = .ok f) : Bears f.nodes before t := by
  have hall := (parse_derives hf).bears []
  rw [Token.significant_eq, h, List.append_assoc] at hall
  exact hall.at

theorem reads_literal (h : (Stream.ofSource source).tokens = before ++ t :: after)
    {value : Literal} (hvalue : t.literal? = some (.ok value)) : Reads source t t.span value where
  occurs := fun _ hf => (bears h hf).literal value hvalue
  silent := silent_of_accepted h (Token.accepted_of_literal hvalue)

theorem reads_least (h : (Stream.ofSource source).tokens = before ++ t :: after)
    {why : NumberError} (hwhy : t.literal? = some (.error why)) (ht : t.IsExcepted before)
    {front : List Token} {sign : Token} (hbefore : before = front ++ [sign]) :
    Reads source t (sign.span.hull t.span) .least where
  occurs := fun f hf => by
    obtain ⟨front', sign', heq, hoccurs⟩ := (bears h hf).least why hwhy
    obtain ⟨-, hsign⟩ := List.append_inj' (hbefore.symm.trans heq) rfl
    rw [List.singleton_inj.mp hsign]
    exact hoccurs
  silent := silent_of_accepted h fun _ hrefused => hrefused.2 ht

theorem rejects (h : (Stream.ofSource source).tokens = before ++ t :: after) {why : NumberError}
    (hrefused : t.Refused before why) : Rejects source t := by
  by_cases hlex : Token.lexErrors source = []
  · obtain ⟨e, he, hreported⟩ := (errors_report hlex).complete before t after why h hrefused
    refine ⟨errors source, parse_error_iff.mpr ⟨List.ne_nil_of_mem he, rfl⟩, fun _ => ⟨e, he, ?_⟩⟩
    refine hreported.imp_right fun ⟨hstart, hseps⟩ => ⟨hstart, fun u hu hsep => ?_⟩
    rw [Token.significant_eq] at hu
    rcases List.mem_append.mp hu with hu | hu
    · exact hseps u hu hsep
    · rw [List.mem_singleton.mp hu] at hsep
      cases hsep
  · have herrors : errors source = (Token.lexErrors source).map .ofLexError := if_neg hlex
    refine ⟨errors source, parse_error_iff.mpr ⟨?_, rfl⟩, fun h => absurd h hlex⟩
    rw [herrors]
    simpa using hlex

/-- How a token of the value `n` without a suffix is read. -/
structure ReadsSigned (source : String) (before : List Token) (t : Token) (n : Nat) : Prop where
  fits : n < 2 ^ 63 → Reads source t t.span (.signed (BitVec.ofNat 64 n))
  least : n = 2 ^ 63 → ∀ front sign, before = front ++ [sign] → sign.kind = .minus →
    ¬ EndsInOperand front → Reads source t (sign.span.hull t.span) (.signed (BitVec.intMin 64))
  tooLarge : 2 ^ 63 ≤ n → ¬ (n = 2 ^ 63 ∧ EndsInSign before) → Rejects source t

/-- How a token of the value `n` with the suffix for unsigned integers is read. -/
structure ReadsUnsigned (source : String) (t : Token) (n : Nat) : Prop where
  fits : n < 2 ^ 64 → Reads source t t.span (.unsigned (BitVec.ofNat 64 n))
  tooLarge : 2 ^ 64 ≤ n → Rejects source t

end Fragment

namespace IsNumeral

variable {cs : List Char} {source : String} {before after : List Token} {t : Token}

theorem readsSigned (hcs : IsNumeral cs)
    (h : Token.significant source = before ++ t :: after)
    (ht : t.erase = ⟨.int, String.ofList cs⟩) :
    Fragment.ReadsSigned source before t (numeralValue cs) := by
  have hkind : t.kind = .int := congrArg Lexeme.kind ht
  have htext : t.lexeme = String.ofList cs := congrArg Lexeme.text ht
  obtain ⟨rest, htokens⟩ :=
    Token.tokens_of_significant h (by rw [hkind]; exact TokenKind.noConfusion)
  have hliteral : t.literal? = some (NumberToken.signed (String.ofList cs)) := by
    rw [Token.literal?, hkind, htext]
  rw [hcs.signed] at hliteral
  refine ⟨fun hfits => ?_, fun hleast front sign hbefore hsign hfront => ?_,
    fun hlarge hother => ?_⟩
  · rw [if_pos hfits] at hliteral
    exact Fragment.reads_literal htokens hliteral
  · rw [if_neg (by omega)] at hliteral
    have hmagnitude : NumberToken.isMinMagnitude t.lexeme = true := by
      rw [htext, hcs.isMinMagnitude_iff]
      exact hleast
    exact Fragment.reads_least htokens hliteral
      ⟨hkind, hmagnitude, front, sign, hbefore, hsign, hfront⟩ hbefore
  · rw [if_neg (by omega)] at hliteral
    refine Fragment.rejects htokens ⟨hliteral, fun hexcepted => hother ⟨?_, hexcepted.2.2⟩⟩
    have hmagnitude := hexcepted.2.1
    rwa [htext, hcs.isMinMagnitude_iff] at hmagnitude

theorem readsUnsigned (hcs : IsNumeral cs) {c : Char} (hc : c = 'u' ∨ c = 'U')
    (h : Token.significant source = before ++ t :: after)
    (ht : t.erase = ⟨.unsigned, String.ofList (cs ++ [c])⟩) :
    Fragment.ReadsUnsigned source t (numeralValue cs) := by
  have hkind : t.kind = .unsigned := congrArg Lexeme.kind ht
  have htext : t.lexeme = String.ofList (cs ++ [c]) := congrArg Lexeme.text ht
  obtain ⟨rest, htokens⟩ :=
    Token.tokens_of_significant h (by rw [hkind]; exact TokenKind.noConfusion)
  have hliteral : t.literal? = some (NumberToken.unsigned (String.ofList (cs ++ [c]))) := by
    rw [Token.literal?, hkind, htext]
  rw [hcs.unsigned hc] at hliteral
  refine ⟨fun hfits => ?_, fun hlarge => ?_⟩
  · rw [if_pos hfits] at hliteral
    exact Fragment.reads_literal htokens hliteral
  · rw [if_neg (by omega)] at hliteral
    refine Fragment.rejects htokens ⟨hliteral, fun hexcepted => ?_⟩
    cases hkind.symm.trans hexcepted.1

end IsNumeral

/-! ## Numbers alone -/

namespace Parser

variable {expr : Parser Node} {s s' : Stream}

theorem not_minus_of_literal {r : Except NumberError Literal} (h : s.current.literal? = some r) :
    s.current.kind ≠ .minus := fun hminus => by
  have hkind := Token.literal_isLiteral h
  rw [hminus] at hkind
  cases hkind

theorem operand_literal {value : Literal} (h : s.current.literal? = some (.ok value))
    (count : Nat) :
    operand expr (count + 1) s = (.ok (.literal s.current.span value), s.advance) := by
  rw [operand_eq_primary (not_minus_of_literal h), primary, current_bind, h]
  rfl

theorem operand_refused {why : NumberError} (h : s.current.literal? = some (.error why))
    (count : Nat) :
    operand expr (count + 1) s =
      (.error ⟨.invalidNumber why, s.current.span, none⟩, s.advance) := by
  rw [operand_eq_primary (not_minus_of_literal h), primary, current_bind, h]
  rfl

theorem operand_least (hsign : s.current.kind = .minus) (hnumber : s.advance.current.kind = .int)
    (hleast : NumberToken.isMinMagnitude s.advance.current.lexeme = true) (count : Nat) :
    operand expr (count + 1) s =
      (.ok (.literal (s.current.span.hull s.advance.current.span) .least), s.advance.advance) := by
  rw [operand, current_bind, if_pos hsign, advance_bind, current_bind,
    if_pos (by simp [hnumber, hleast])]
  rfl

/-- After a minus that is not part of a literal, the operand is negated or fails. -/
theorem operand_negated (hsign : s.current.kind = .minus)
    (hother : NumberToken.isMinMagnitude s.advance.current.lexeme = false) {count : Nat}
    {r : Except ParseError Node} (h : operand expr count s.advance = (r, s')) :
    operand expr (count + 1) s =
      (r.map fun node => .negate (s.current.span.hull node.span) node, s') := by
  rw [operand, current_bind, if_pos hsign, advance_bind, current_bind,
    if_neg (by simp [hother]), bind_apply, h]
  cases r <;> rfl

/-- A statement that is one operand, or fails there, with no token left. -/
theorem topLevel_of_operand {fuel : Nat} {r : Except ParseError Node}
    (hdef : s.current.kind ≠ .defWord) (hs' : s'.tokens = [])
    (h : operand (expression fuel 0) (fuel + 1) s = (r, s')) :
    topLevel (fuel + 1) s = (r, s') := by
  have heof := Stream.current_of_nil hs'
  have hstops : Stops 0 s' := fun op hop => by rw [heof] at hop; cases hop
  have hstatement : statement (fuel + 1) s = (r, s') := by
    rw [statement, current_bind, if_neg hdef, expression, bind_apply, h]
    cases r with
    | error e => rfl
    | ok node => exact climb_stops _ node hstops
  rw [topLevel, bind_apply, hstatement]
  cases r with
  | error e => rfl
  | ok node => exact bind_ok (endOfStatement_ok (.inr heof))

end Parser

/-- A source of one operand. -/
theorem Fragment.parse_of_operand {source : String} {s s' : Stream} {r : Except ParseError Node}
    (hlex : Token.lexErrors source = []) (hs : Stream.ofSource source = s)
    (hopens : s.current.kind.opens = true) (hdef : s.current.kind ≠ .defWord)
    (hs' : s'.tokens = [])
    (h : Parser.operand (Parser.expression s.tokens.length 0) (s.tokens.length + 1) s = (r, s')) :
    parse source = (r.map fun node => ⟨[node]⟩).mapError fun e => [e] := by
  have hne : s.tokens ≠ [] := fun hnil => by
    rw [Stream.current_of_nil hnil] at hopens
    cases hopens
  have hseps : s.separators = [] := Stream.separators_eq_nil_iff.mpr fun t ht => by
    rw [← Stream.current_of_head? ht]
    exact TokenKind.isSeparator_of_opens hopens
  have htop := Parser.topLevel_of_operand hdef hs' h
  obtain ⟨turns, hturns⟩ : ∃ k, s.tokens.length = k + 1 :=
    Nat.exists_eq_succ_of_ne_zero (List.length_pos_iff.mpr hne).ne'
  have hcollected : Parser.collected s = Parser.collect (s.tokens.length + 1) (turns + 1) s := by
    rw [Parser.collected, Stream.skipSeparators_eq hseps, ← hturns]
  rw [parse_eq, errors, if_pos hlex, hs, hcollected]
  cases r with
  | error e =>
      rw [Parser.collect_error turns hne htop, Parser.collect_end]
      · rfl
      · simp [Stream.skipSeparators, Stream.skipStatement, hs']
  | ok node =>
      rw [Parser.collect_ok turns hne htop, Parser.collect_end]
      · rfl
      · simp [Stream.skipSeparators, hs']

theorem Token.stream_of_scan {source : String} {ts : List Token} (h : scan source = ts)
    (hkinds : ∀ t ∈ ts, t.kind.isTrivia = false ∧ t.kind ≠ .unknown) :
    lexErrors source = [] ∧ Stream.ofSource source = ⟨ts, byteLength source.toList⟩ := by
  constructor
  · rw [lexErrors, h, List.filterMap_eq_nil_iff]
    exact fun t ht => if_neg (hkinds t ht).2
  · have hfilter : ts.filter (!·.kind.isTrivia) = ts :=
      List.filter_eq_self.mpr fun t ht => by rw [(hkinds t ht).1]; rfl
    rw [Stream.ofSource, h, hfilter]

/-- A source of one number. -/
theorem Fragment.parse_of_number {source : String} {t : Token} (hscan : Token.scan source = [t])
    {r : Except NumberError Literal} (h : t.literal? = some r) :
    parse source = (r.map fun value => ⟨[.literal t.span value]⟩).mapError
      fun why => [⟨.invalidNumber why, t.span, none⟩] := by
  have hliteral := Token.literal_isLiteral h
  have hkind : t.kind.isTrivia = false ∧ t.kind ≠ .unknown ∧ t.kind ≠ .defWord := by
    revert hliteral
    cases t.kind <;> simp [TokenKind.isLiteral, TokenKind.isTrivia]
  have hkinds : ∀ u ∈ [t], u.kind.isTrivia = false ∧ u.kind ≠ .unknown := by
    simp [hkind]
  obtain ⟨hlex, hs⟩ := Token.stream_of_scan hscan hkinds
  have hopens := TokenKind.opens_of_isLiteral hliteral
  have hdef := hkind.2.2
  cases r with
  | ok value =>
      exact parse_of_operand hlex hs hopens hdef rfl (Parser.operand_literal (s := ⟨[t], _⟩) h 1)
  | error why =>
      exact parse_of_operand hlex hs hopens hdef rfl (Parser.operand_refused (s := ⟨[t], _⟩) h 1)

/-- A source of a minus and a number. -/
theorem Fragment.parse_of_negated {source : String} {sign t : Token}
    (hscan : Token.scan source = [sign, t]) (hsign : sign.kind = .minus) (hkind : t.kind = .int) :
    parse source =
      if NumberToken.isMinMagnitude t.lexeme = true then
        .ok ⟨[.literal (sign.span.hull t.span) .least]⟩
      else
        ((NumberToken.signed t.lexeme).map fun value =>
          ⟨[.negate (sign.span.hull t.span) (.literal t.span value)]⟩).mapError
            fun why => [⟨.invalidNumber why, t.span, none⟩] := by
  have hkinds : ∀ u ∈ [sign, t], u.kind.isTrivia = false ∧ u.kind ≠ .unknown := by
    simp [hsign, hkind, TokenKind.isTrivia]
  obtain ⟨hlex, hs⟩ := Token.stream_of_scan hscan hkinds
  generalize byteLength source.toList = size at hs
  have hopens : sign.kind.opens = true := by rw [hsign]; rfl
  have hdef : sign.kind ≠ .defWord := by rw [hsign]; exact TokenKind.noConfusion
  have hliteral : t.literal? = some (NumberToken.signed t.lexeme) := by rw [Token.literal?, hkind]
  split
  · rename_i hleast
    exact parse_of_operand hlex hs hopens hdef rfl
      (Parser.operand_least (s := ⟨[sign, t], size⟩) hsign hkind hleast 2)
  · rename_i hother
    have hother : NumberToken.isMinMagnitude t.lexeme = false := by simpa using hother
    cases hr : NumberToken.signed t.lexeme with
    | ok value =>
        rw [hr] at hliteral
        exact parse_of_operand hlex hs hopens hdef rfl
          (Parser.operand_negated (s := ⟨[sign, t], size⟩) hsign hother
            (Parser.operand_literal (s := ⟨[t], size⟩) hliteral 1))
    | error why =>
        rw [hr] at hliteral
        exact parse_of_operand hlex hs hopens hdef rfl
          (Parser.operand_negated (s := ⟨[sign, t], size⟩) hsign hother
            (Parser.operand_refused (s := ⟨[t], size⟩) hliteral 1))

namespace IsNumeral

variable {cs blanks : List Char} {c : Char}

theorem parse_signed (h : IsNumeral cs) :
    Fragment.parse (String.ofList cs) =
      if numeralValue cs < 2 ^ 63 then
        .ok ⟨[.literal ⟨0, byteLength cs⟩ (.signed (BitVec.ofNat 64 (numeralValue cs)))]⟩
      else
        .error [⟨.invalidNumber (.signedRange (String.ofList cs)), ⟨0, byteLength cs⟩, none⟩] := by
  have hscan : Token.scan (String.ofList cs) =
      [⟨.int, ⟨0, byteLength cs⟩, String.ofList cs⟩] := by
    rw [Token.scan, String.toList_ofList, h.scanFrom_int, Nat.zero_add]
  rw [Fragment.parse_of_number hscan rfl, h.signed]
  split <;> rfl

theorem parse_unsigned (h : IsNumeral cs) (hc : c = 'u' ∨ c = 'U') :
    Fragment.parse (String.ofList (cs ++ [c])) =
      if numeralValue cs < 2 ^ 64 then
        .ok ⟨[.literal ⟨0, byteLength (cs ++ [c])⟩
          (.unsigned (BitVec.ofNat 64 (numeralValue cs)))]⟩
      else
        .error [⟨.invalidNumber (.unsignedRange (String.ofList (cs ++ [c]))),
          ⟨0, byteLength (cs ++ [c])⟩, none⟩] := by
  have hscan : Token.scan (String.ofList (cs ++ [c])) =
      [⟨.unsigned, ⟨0, byteLength (cs ++ [c])⟩, String.ofList (cs ++ [c])⟩] := by
    rw [Token.scan, String.toList_ofList, h.scanFrom_unsigned hc, Nat.zero_add]
  rw [Fragment.parse_of_number hscan rfl, h.unsigned hc]
  split <;> rfl

/-- The two tokens of a numeral after a minus. -/
theorem scan_negated (h : IsNumeral cs) (hblanks : ∀ c ∈ blanks, isBlank c = true) :
    Token.scan (String.ofList ('-' :: (blanks ++ cs))) =
      [⟨.minus, ⟨0, 1⟩, "-"⟩, ⟨.int, ⟨1 + byteLength blanks, 1 + byteLength blanks + byteLength cs⟩,
        String.ofList cs⟩] := by
  have hminus : Token.munch '-' (blanks ++ cs) = (.minus, 0) := rfl
  have hblank : isBlank '-' = false := rfl
  rw [Token.scan, String.toList_ofList, Token.scanFrom]
  simp only [hblank, Bool.false_eq_true, if_false, hminus, List.take_zero, List.drop_zero]
  rw [Token.scanFrom_blanks hblanks, h.scanFrom_int]
  rfl

theorem parse_negated (h : IsNumeral cs) (hblanks : ∀ c ∈ blanks, isBlank c = true) :
    Fragment.parse (String.ofList ('-' :: (blanks ++ cs))) =
      if numeralValue cs = 2 ^ 63 then
        .ok ⟨[.literal ⟨0, 1 + byteLength blanks + byteLength cs⟩ .least]⟩
      else if numeralValue cs < 2 ^ 63 then
        .ok ⟨[.negate ⟨0, 1 + byteLength blanks + byteLength cs⟩
          (.literal ⟨1 + byteLength blanks, 1 + byteLength blanks + byteLength cs⟩
            (.signed (BitVec.ofNat 64 (numeralValue cs))))]⟩
      else
        .error [⟨.invalidNumber (.signedRange (String.ofList cs)),
          ⟨1 + byteLength blanks, 1 + byteLength blanks + byteLength cs⟩, none⟩] := by
  have hhull : (⟨0, 1⟩ : Span).hull
      ⟨1 + byteLength blanks, 1 + byteLength blanks + byteLength cs⟩ =
        ⟨0, 1 + byteLength blanks + byteLength cs⟩ := by
    simp [Span.hull, Nat.add_assoc]
  rw [Fragment.parse_of_negated (h.scan_negated hblanks) rfl rfl]
  simp only [hhull, h.isMinMagnitude_iff, h.signed]
  split
  · rfl
  · split <;> rfl

/-- A numeral after a minus gives the negated number, which is in range up to `2 ^ 63`. -/
theorem outcome_negated (h : IsNumeral cs) (hblanks : ∀ c ∈ blanks, isBlank c = true)
    (hle : numeralValue cs ≤ 2 ^ 63) :
    Probe.outcome (String.ofList ('-' :: (blanks ++ cs))) =
      .ok (some (.signed (BitVec.ofInt 64 (-(numeralValue cs : ℤ))))) := by
  have hparse := h.parse_negated hblanks
  rcases hle.eq_or_lt with heq | hlt
  · rw [if_pos heq] at hparse
    have hvalue : BitVec.ofInt 64 (-(numeralValue cs : ℤ)) = BitVec.intMin 64 := by
      rw [heq]
      rfl
    rw [hvalue]
    exact Probe.outcome_eq hparse rfl (fun p => ⟨_, .literal⟩) fun call => rfl
  · rw [if_neg hlt.ne, if_pos hlt] at hparse
    have hvalue : (BitVec.ofNat 64 (numeralValue cs)).toInt = numeralValue cs := by
      rw [← BitVec.ofInt_natCast, BitVec.toInt_ofInt, Int.bmod_eq_of_le] <;> omega
    refine Probe.outcome_eq hparse rfl (fun p => ⟨_, .negate .literal trivial⟩) fun call => ?_
    show Except.ok (Value.signed (BitVec.ofInt 64 (-(BitVec.ofNat 64 (numeralValue cs)).toInt))) = _
    rw [hvalue]

end IsNumeral

/-- Integer literals are exact at their limits. Digits of the value `n` are read as `n` wherever
    they stand if `n` fits the type, and otherwise they are refused where they stand. Only `2 ^ 63`
    directly after a unary minus is read together with the minus; a minus after an operand, or a
    parenthesis between, makes no exception. Alone or after a minus and blanks they are a source,
    which is accepted or refused accordingly, and with the minus it gives `-n`. -/
theorem integer_literals_exact {cs blanks : List Char} {n : Nat} (hcs : IsNumeral cs)
    (hn : numeralValue cs = n) (hblanks : ∀ c ∈ blanks, isBlank c = true) :
    (∀ source before t after, Token.significant source = before ++ t :: after →
      (t.erase = ⟨.int, String.ofList cs⟩ → Fragment.ReadsSigned source before t n) ∧
      ∀ c, c = 'u' ∨ c = 'U' → t.erase = ⟨.unsigned, String.ofList (cs ++ [c])⟩ →
        Fragment.ReadsUnsigned source t n) ∧
    Fragment.parse (String.ofList cs) =
      (if n < 2 ^ 63 then
        .ok ⟨[.literal ⟨0, byteLength cs⟩ (.signed (BitVec.ofNat 64 n))]⟩
      else
        .error [⟨.invalidNumber (.signedRange (String.ofList cs)), ⟨0, byteLength cs⟩, none⟩]) ∧
    (∀ c, c = 'u' ∨ c = 'U' → Fragment.parse (String.ofList (cs ++ [c])) =
      if n < 2 ^ 64 then
        .ok ⟨[.literal ⟨0, byteLength (cs ++ [c])⟩ (.unsigned (BitVec.ofNat 64 n))]⟩
      else
        .error [⟨.invalidNumber (.unsignedRange (String.ofList (cs ++ [c]))),
          ⟨0, byteLength (cs ++ [c])⟩, none⟩]) ∧
    Fragment.parse (String.ofList ('-' :: (blanks ++ cs))) =
      (if n = 2 ^ 63 then
        .ok ⟨[.literal ⟨0, 1 + byteLength blanks + byteLength cs⟩ (.signed (BitVec.intMin 64))]⟩
      else if n < 2 ^ 63 then
        .ok ⟨[.negate ⟨0, 1 + byteLength blanks + byteLength cs⟩
          (.literal ⟨1 + byteLength blanks, 1 + byteLength blanks + byteLength cs⟩
            (.signed (BitVec.ofNat 64 n)))]⟩
      else
        .error [⟨.invalidNumber (.signedRange (String.ofList cs)),
          ⟨1 + byteLength blanks, 1 + byteLength blanks + byteLength cs⟩, none⟩]) ∧
    (n ≤ 2 ^ 63 → Probe.outcome (String.ofList ('-' :: (blanks ++ cs))) =
      .ok (some (.signed (BitVec.ofInt 64 (-(n : ℤ)))))) := by
  subst hn
  refine ⟨fun source before t after h => ⟨hcs.readsSigned h, fun c hc => hcs.readsUnsigned hc h⟩,
    hcs.parse_signed, fun c hc => hcs.parse_unsigned hc, hcs.parse_negated hblanks,
    hcs.outcome_negated hblanks⟩

/-- A grouped numeral for `2 ^ 63` with a leading zero: after a minus and blanks, after a binary
    minus, and in parentheses after a unary one. -/
theorem grouped_numeral_exact :
    let digits := "09_223_372_036_854_775_808_"
    IsNumeral digits.toList ∧ numeralValue digits.toList = 2 ^ 63 ∧
    Probe.outcome ("- \t" ++ digits) = .ok (some (.signed (BitVec.intMin 64))) ∧
    Fragment.Rejects ("1-" ++ digits) ⟨.int, ⟨2, 29⟩, digits⟩ ∧
    Fragment.Rejects ("-(" ++ digits ++ ")") ⟨.int, ⟨2, 29⟩, digits⟩ := by
  intro digits
  have hdigits : IsNumeral digits.toList := by
    refine ⟨'0', "9_223_372_036_854_775_808_".toList, by decide +kernel, by decide, ?_⟩
    exact List.all_eq_true.mp (by decide +kernel)
  have hvalue : numeralValue digits.toList = 2 ^ 63 := by
    rw [← hdigits.ofDigits_filter]
    decide +kernel
  have hblanks : ∀ c ∈ [' ', '\t'], isBlank c = true := by simp [isBlank]
  obtain ⟨hsources, -, -, -, houtcome⟩ := integer_literals_exact hdigits hvalue hblanks
  have htext : String.ofList ('-' :: ([' ', '\t'] ++ digits.toList)) = "- \t" ++ digits := by
    decide +kernel
  have herase (span : Span) : (⟨.int, span, digits⟩ : Token).erase =
      ⟨.int, String.ofList digits.toList⟩ := by
    rw [String.ofList_toList]
    rfl
  refine ⟨hdigits, hvalue, htext ▸ houtcome le_rfl, ?_, ?_⟩
  · have htokens : Token.significant ("1-" ++ digits) =
        [⟨.int, ⟨0, 1⟩, "1"⟩] ++ [⟨.minus, ⟨1, 2⟩, "-"⟩] ++ ⟨.int, ⟨2, 29⟩, digits⟩ ::
          [.eof 29] := by
      decide +kernel
    refine ((hsources _ _ _ _ htokens).1 (herase _)).tooLarge le_rfl fun hexcepted => ?_
    exact (Token.endsInSign_concat.mp hexcepted.2).2 ⟨_, rfl, rfl⟩
  · have htokens : Token.significant ("-(" ++ digits ++ ")") =
        [⟨.minus, ⟨0, 1⟩, "-"⟩] ++ [⟨.lParen, ⟨1, 2⟩, "("⟩] ++ ⟨.int, ⟨2, 29⟩, digits⟩ ::
          [⟨.rParen, ⟨29, 30⟩, ")"⟩, .eof 30] := by
      decide +kernel
    refine ((hsources _ _ _ _ htokens).1 (herase _)).tooLarge le_rfl fun hexcepted => ?_
    cases (Token.endsInSign_concat.mp hexcepted.2).1

end ScalarLang
