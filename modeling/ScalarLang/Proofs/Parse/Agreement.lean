import Mathlib
import ScalarLang.Proofs.Parse.Joining
import ScalarLang.Proofs.Parse.RoundTrip
import ScalarLang.Proofs.Token.Patterns

/-
  An expression alone and a fragment of one expression.
  A source is read as an expression where separators may follow but not stand in front, and as a
  fragment where they may do both. Apart from that the two readings accept the same sources that
  stand for one expression, and give the same tree. What connects them is that a scan holds no end
  marker, so that what follows an expression up to the end can only be separators.
-/

namespace ScalarLang

/-! ## End markers -/

namespace Token

theorem munchNumber_ne_eof (cs : List Char) : (munchNumber cs).1 ≠ .eof := by
  rcases numberTail_kind (cs.drop (digitRun cs)) with h | h | h <;>
    simp only [munchNumber, h] <;> exact TokenKind.noConfusion

theorem wordKind_ne_eof (word : List Char) : wordKind word ≠ .eof := by
  have hreserved : ∀ entry ∈ reserved, entry.2 ≠ .eof := by decide
  by_cases hident : wordKind word = .ident
  · rw [hident]
    exact TokenKind.noConfusion
  · exact hreserved _ (mem_reserved_of_wordKind hident)

theorem munchSymbol_ne_eof (c : Char) (cs : List Char) : (munchSymbol c cs).1 ≠ .eof := by
  rcases munchSymbol_kind c cs with (h | h) | ⟨_, h⟩ | ⟨_, _, h⟩
  · intro heof
    rw [heof] at h
    cases h
  all_goals
    rw [h]
    exact TokenKind.noConfusion

theorem munch_ne_eof (c : Char) (cs : List Char) : (munch c cs).1 ≠ .eof := by
  unfold munch
  split
  · exact munchNumber_ne_eof cs
  · split
    · exact wordKind_ne_eof _
    · exact munchSymbol_ne_eof c cs

theorem scanFrom_ne_eof (pos : Nat) (cs : List Char) : ∀ t ∈ scanFrom pos cs, t.kind ≠ .eof := by
  fun_induction scanFrom pos cs with
  | case1 => simp
  | case2 pos c cs _ ih => exact ih
  | case3 pos c cs _ kind more hm lexeme stop ih =>
      have hkind := munch_ne_eof c cs
      rw [hm] at hkind
      exact List.forall_mem_cons.mpr ⟨hkind, ih⟩

end Token

namespace Stream

/-- The end marker is no token of the source. -/
def Unmarked (s : Stream) : Prop := ∀ t ∈ s.tokens, t.kind ≠ .eof

theorem ofSource_unmarked (source : String) : (ofSource source).Unmarked :=
  fun t ht => Token.scanFrom_ne_eof _ _ t (List.mem_of_mem_filter ht)

theorem Unmarked.eq_nil {s : Stream} (hs : s.Unmarked) (h : s.current.kind = .eof) :
    s.tokens = [] := by
  cases htokens : s.tokens with
  | nil => rfl
  | cons t rest =>
      rw [current, htokens] at h
      exact absurd h (hs t (by simp [htokens]))

theorem current_of_nil {s : Stream} (h : s.tokens = []) : s.current.kind = .eof := by
  rw [current, h]
  rfl

/-- Where only separators are left, one comes next or none is left. -/
theorem ends_of_skipSeparators {s : Stream} (h : s.skipSeparators.tokens = []) :
    s.current.kind.isSeparator = true ∨ s.current.kind = .eof := by
  cases htokens : s.tokens with
  | nil => exact .inr (current_of_nil htokens)
  | cons t rest =>
      left
      rw [current, htokens]
      exact List.dropWhile_eq_nil_iff.mp h t (by simp [htokens])

theorem separators_eq_nil_iff {s : Stream} :
    s.separators = [] ↔ ∀ t ∈ s.tokens.head?, t.kind.isSeparator = false := by
  cases htokens : s.tokens with
  | nil => simp [separators, htokens]
  | cons t rest => simp [separators, htokens, List.takeWhile_cons]

end Stream

/-! ## One statement -/

namespace Parser

variable {α β : Type} {fuel : Nat} {s t : Stream} {node : Node}

theorem bind_ok_iff {x : Parser α} {f : α → Parser β} {b : β} :
    (x >>= f) s = (.ok b, t) ↔ ∃ a s', x s = (.ok a, s') ∧ f a s' = (.ok b, t) := by
  rw [bind_apply]
  rcases x s with ⟨e | a, s'⟩
  · constructor
    · intro h
      cases h
    · rintro ⟨a, s', h, -⟩
      cases h
  · constructor
    · intro h
      exact ⟨a, s', rfl, h⟩
    · rintro ⟨a', s'', h, hf⟩
      cases h
      exact hf

theorem pure_ok_iff {a b : α} :
    (pure a : Parser α) s = (.ok b, t) ↔ a = b ∧ s = t := by
  constructor
  · intro h
    cases h
    exact ⟨rfl, rfl⟩
  · rintro ⟨rfl, rfl⟩
    rfl

theorem expect_ok_iff {kind : TokenKind} {token : Token} :
    expect kind s = (.ok token, t) ↔
      s.current.kind = kind ∧ s.current = token ∧ s.advance = t := by
  rw [expect, current_bind]
  split
  · rename_i hkind
    rw [advance_bind, pure_ok_iff]
    exact (and_iff_right hkind).symm
  · rename_i hkind
    constructor
    · intro h
      cases h
    · rintro ⟨h, -⟩
      exact absurd h hkind

theorem endOfStatement_ok_iff {closer : TokenKind} {u : Unit} :
    endOfStatement closer s = (.ok u, t) ↔
      (s.current.kind.isSeparator = true ∨ s.current.kind = closer) ∧ s = t := by
  rw [endOfStatement, current_bind]
  split
  · rename_i hends
    rw [pure_ok_iff]
    simp_all
  · rename_i hends
    constructor
    · intro h
      cases h
    · rintro ⟨h, -⟩
      exact absurd (by simpa using h) hends

/-- No expression starts with the word `def`. -/
theorem expression_not_def (h : expression fuel 0 s = (.ok node, t)) :
    s.current.kind ≠ .defWord := by
  intro hdef
  cases fuel with
  | zero => cases h
  | succ fuel =>
      have hsign : s.current.kind ≠ .minus := by rw [hdef]; exact TokenKind.noConfusion
      have hliteral : s.current.kind.isLiteral = false := by rw [hdef]; rfl
      rw [expression, bind_apply, operand_eq_primary hsign, primary_of_not_literal hliteral,
        hdef] at h
      cases h

theorem expression_definition (hs : ∀ token ∈ s.tokens, token.Spelled)
    (h : expression fuel 0 s = (.ok node, t)) : node.definition? = none :=
  (expression_yields fuel 0 s hs).2 node (by rw [h])

theorem functionDef_definition (hs : s.tokens.length < fuel)
    (h : functionDef (expression fuel 0) fuel s = (.ok node, t)) : node.definition? ≠ none := by
  obtain ⟨ts, -, hderives⟩ := functionDef_takes (fun _ => expression_derives) fuel hs node t h
  cases hderives
  exact Option.some_ne_none _

/-- No expression starts with a separator. -/
theorem expression_separators (hs : s.tokens.length < fuel)
    (h : expression fuel 0 s = (.ok node, t)) : s.separators = [] := by
  obtain ⟨ts, htaken, hderives⟩ := expression_derives hs node t h
  obtain ⟨⟨first, hfirst, hopens⟩, -⟩ := hderives.framed (by simp)
  refine Stream.separators_eq_nil_iff.mpr fun token htoken => ?_
  have hhead : first ∈ s.tokens.head? := by
    rw [htaken]
    exact List.mem_head?_append_of_mem_head? hfirst
  obtain rfl : first = token := Option.some.inj (hhead.symm.trans htoken)
  exact TokenKind.isSeparator_of_opens hopens

/-- The statements that are no definitions are the expressions. -/
theorem expression_ok_iff (hs : ∀ token ∈ s.tokens, token.Spelled)
    (hfuel : s.tokens.length < fuel) :
    expression fuel 0 s = (.ok node, t) ↔
      statement fuel s = (.ok node, t) ∧ node.definition? = none := by
  rw [statement, current_bind]
  constructor
  · intro h
    rw [if_neg (expression_not_def h)]
    exact ⟨h, expression_definition hs h⟩
  · rintro ⟨h, hnone⟩
    split at h
    · exact absurd hnone (functionDef_definition hfuel h)
    · exact h

theorem topLevel_ok_iff : topLevel fuel s = (.ok node, t) ↔
    statement fuel s = (.ok node, t) ∧
      (t.current.kind.isSeparator = true ∨ t.current.kind = .eof) := by
  simp only [topLevel, bind_ok_iff, endOfStatement_ok_iff, pure_ok_iff]
  constructor
  · rintro ⟨_, _, h, _, _, ⟨hends, rfl⟩, rfl, rfl⟩
    exact ⟨h, hends⟩
  · rintro ⟨h, hends⟩
    exact ⟨node, t, h, (), t, ⟨hends, rfl⟩, rfl, rfl⟩

/-- Nothing is read without a complaint only where there is nothing. -/
theorem collect_eq_nil_iff {turns : Nat} (hturns : s.tokens.length ≤ turns) :
    collect fuel turns s = ([], []) ↔ s.tokens = [] := by
  refine ⟨fun h => ?_, collect_end fuel turns⟩
  by_contra hne
  have hpos := List.length_pos_iff.mpr hne
  obtain ⟨turns, rfl⟩ : ∃ k, turns = k + 1 := Nat.exists_eq_succ_of_ne_zero (by omega)
  rcases hr : topLevel fuel s with ⟨e | first, s'⟩
  · rw [collect_error turns hne hr] at h
    cases (Prod.mk.inj h).2
  · rw [collect_ok turns hne hr] at h
    cases (Prod.mk.inj h).1

/-- One statement is read without a complaint exactly if only separators follow the first. -/
theorem collect_eq_single_iff {turns : Nat} (hfuel : s.tokens.length < fuel)
    (hturns : s.tokens.length ≤ turns) :
    collect fuel turns s = ([node], []) ↔
      ∃ t, topLevel fuel s = (.ok node, t) ∧ t.skipSeparators.tokens = [] := by
  by_cases hne : s.tokens = []
  · rw [collect_end fuel turns hne]
    constructor
    · intro h
      cases h
    · rintro ⟨t, ht, -⟩
      have hlt := topLevel_length_lt hfuel ht
      rw [hne] at hlt
      exact absurd hlt (Nat.not_lt_zero _)
  · have hpos := List.length_pos_iff.mpr hne
    obtain ⟨turns, rfl⟩ : ∃ k, turns = k + 1 := Nat.exists_eq_succ_of_ne_zero (by omega)
    rcases hr : topLevel fuel s with ⟨e | first, s'⟩
    · rw [collect_error turns hne hr]
      constructor
      · intro h
        cases (Prod.mk.inj h).2
      · rintro ⟨t, ht, -⟩
        cases ht
    · have hlt := topLevel_length_lt hfuel hr
      have hrest := s'.skipSeparators_rest.length_le
      have hnil : collect fuel turns s'.skipSeparators = ([], []) ↔
          s'.skipSeparators.tokens = [] := collect_eq_nil_iff (by omega)
      rw [collect_ok turns hne hr]
      constructor
      · intro h
        obtain ⟨hnodes, herrors⟩ := Prod.mk.inj h
        obtain ⟨rfl, hmore⟩ := List.cons.inj hnodes
        exact ⟨s', rfl, hnil.mp (Prod.ext hmore herrors)⟩
      · rintro ⟨t, ht, hleft⟩
        cases ht
        rw [hnil.mpr hleft]

end Parser

/-! ## The two readings -/

theorem Node.parse_ok_iff {source : String} {node : Node} :
    parse source = .ok node ↔ Token.lexErrors source = [] ∧
      ∃ t, Parser.expression ((Stream.ofSource source).tokens.length + 1) 0
          (Stream.ofSource source) = (.ok node, t) ∧ t.skipSeparators.current.kind = .eof := by
  unfold parse
  split
  · rename_i hlex
    rw [and_iff_right hlex]
    dsimp only
    split
    · rename_i first s' hwhole
      simp only [Parser.bind_ok_iff, Parser.skipSeparators_bind, Parser.expect_ok_iff,
        Parser.pure_ok_iff] at hwhole
      obtain ⟨_, t, hfirst, _, _, ⟨heof, -, -⟩, rfl, -⟩ := hwhole
      constructor
      · intro h
        cases h
        exact ⟨t, hfirst, heof⟩
      · rintro ⟨t', ht', -⟩
        cases hfirst.symm.trans ht'
        rfl
    · rename_i e s' hwhole
      constructor
      · intro h
        cases h
      · rintro ⟨t, ht, heof⟩
        rw [Parser.bind_ok ht, Parser.skipSeparators_bind,
          Parser.bind_ok (Parser.expect_ok heof)] at hwhole
        cases hwhole
  · rename_i hlex
    constructor
    · intro h
      cases h
    · rintro ⟨h, -⟩
      exact absurd h hlex

theorem Fragment.parse_single_iff {source : String} {node : Node} :
    parse source = .ok ⟨[node]⟩ ↔ Token.lexErrors source = [] ∧
      Parser.collected (Stream.ofSource source) = ([node], []) := by
  rw [parse_ok_iff]
  constructor
  · rintro ⟨herrors, hnodes⟩
    obtain ⟨hlex, hcollected⟩ := known_of_errors herrors
    exact ⟨hlex, Prod.ext (congrArg Fragment.nodes hnodes) hcollected⟩
  · rintro ⟨hlex, hcollected⟩
    rw [errors, if_pos hlex, hcollected]
    exact ⟨rfl, rfl⟩

theorem Token.significant_head {source : String} :
    (∀ t ∈ (significant source).head?, t.kind.isSeparator = false) ↔
      (Stream.ofSource source).separators = [] := by
  rw [significant_eq, Stream.separators_eq_nil_iff]
  cases (Stream.ofSource source).tokens with
  | nil => simp [eof, TokenKind.isSeparator]
  | cons t rest => simp

/-- Both readings take the same expression, and then there are only separators. -/
theorem Parser.collected_single_iff {s : Stream} {node : Node}
    (hspelled : ∀ t ∈ s.tokens, t.Spelled) (hunmarked : s.Unmarked) :
    (∃ t, expression (s.tokens.length + 1) 0 s = (.ok node, t) ∧
        t.skipSeparators.current.kind = .eof) ↔
      collected s = ([node], []) ∧ node.definition? = none ∧ s.separators = [] := by
  have hfuel : s.tokens.length < s.tokens.length + 1 := Nat.lt_succ_self _
  constructor
  · rintro ⟨t, ht, heof⟩
    have hseps := expression_separators hfuel ht
    obtain ⟨hstatement, hnone⟩ := (expression_ok_iff hspelled hfuel).mp ht
    obtain ⟨ts, htaken, -⟩ := expression_derives hfuel node t ht
    have hleft : t.skipSeparators.tokens = [] := by
      refine Stream.Unmarked.eq_nil (fun token htoken => hunmarked token ?_) heof
      rw [htaken]
      exact List.mem_append_right _ ((List.dropWhile_suffix _).mem htoken)
    have htop := topLevel_ok_iff.mpr ⟨hstatement, Stream.ends_of_skipSeparators hleft⟩
    rw [collected, Stream.skipSeparators_eq hseps]
    exact ⟨(collect_eq_single_iff hfuel (Nat.le_refl _)).mpr ⟨t, htop, hleft⟩, hnone, hseps⟩
  · rintro ⟨hcollected, hnone, hseps⟩
    rw [collected, Stream.skipSeparators_eq hseps] at hcollected
    obtain ⟨t, htop, hleft⟩ := (collect_eq_single_iff hfuel (Nat.le_refl _)).mp hcollected
    obtain ⟨hstatement, -⟩ := topLevel_ok_iff.mp htop
    exact ⟨t, (expression_ok_iff hspelled hfuel).mpr ⟨hstatement, hnone⟩,
      Stream.current_of_nil hleft⟩

/-- A source is an expression exactly if it is a fragment of one node that is no definition, and
    the first token that is no comment is no separator. The two readings then give the same
    node. -/
theorem expression_iff_single_statement (source : String) (node : Node) :
    Node.parse source = .ok node ↔
      Fragment.parse source = .ok ⟨[node]⟩ ∧ node.definition? = none ∧
        ∀ t ∈ (Token.significant source).head?, t.kind.isSeparator = false := by
  rw [Node.parse_ok_iff, Fragment.parse_single_iff, Token.significant_head, and_assoc,
    Parser.collected_single_iff (Stream.ofSource_spelled source) (Stream.ofSource_unmarked source)]

/-- A line break in front is what only a fragment may have. -/
example : (Fragment.parse "// one\n1;").toOption.isSome = true ∧
    (Node.parse "// one\n1;").toOption.isSome = false := by
  decide +kernel

end ScalarLang
