import Mathlib
import ScalarLang.Proofs.Parse.Derivations
import ScalarLang.Proofs.Token.Joining

/-
  Parsing line by line.
  Two runs of a parser are compared: one on some tokens, and one on the same tokens further on in
  a source, after which a line ends and other tokens follow. `Mirrors` says that the second run
  does what the first one does, as far as the tokens go that they share. Where these are at their
  end, the first run sees the end marker and the second one a newline. Parsers that give something
  take no notice of that, unless what they read is still open, and then the first run fails.
-/

namespace ScalarLang

/-! ## Shifted trees -/

def Ident.shift (bytes : Nat) (i : Ident) : Ident := { i with span := i.span.shift bytes }

mutual

/-- The tree with all spans shifted. -/
def Node.shift (bytes : Nat) : Node → Node
  | .literal span value => .literal (span.shift bytes) value
  | .name span text => .name (span.shift bytes) text
  | .binary span op lhs rhs => .binary (span.shift bytes) op (lhs.shift bytes) (rhs.shift bytes)
  | .negate span operand => .negate (span.shift bytes) (operand.shift bytes)
  | .conditional span form test thenArm elseArm =>
    .conditional (span.shift bytes) form (test.shift bytes) (thenArm.shift bytes)
      (elseArm.shift bytes)
  | .function span ident params body =>
    .function (span.shift bytes) (ident.shift bytes) (params.map (Ident.shift bytes))
      (Node.shiftAll bytes body)
  | .call span callee args =>
    .call (span.shift bytes) (callee.shift bytes) (Node.shiftAll bytes args)

def Node.shiftAll (bytes : Nat) : List Node → List Node
  | [] => []
  | node :: rest => node.shift bytes :: Node.shiftAll bytes rest

end

def Fragment.shift (bytes : Nat) (f : Fragment) : Fragment := ⟨Node.shiftAll bytes f.nodes⟩

def ParseError.shift (bytes : Nat) (e : ParseError) : ParseError :=
  { e with span := e.span.shift bytes }

theorem Span.hull_shift (bytes : Nat) (a b : Span) :
    (a.shift bytes).hull (b.shift bytes) = (a.hull b).shift bytes := by
  simp only [Span.hull, Span.shift, Nat.add_min_add_right, Nat.add_max_add_right]

theorem Node.span_shift (bytes : Nat) (node : Node) :
    (node.shift bytes).span = node.span.shift bytes := by
  cases node <;> rw [Node.shift] <;> rfl

theorem Node.shiftAll_isEmpty (bytes : Nat) (nodes : List Node) :
    (Node.shiftAll bytes nodes).isEmpty = nodes.isEmpty := by
  cases nodes <;> simp [Node.shiftAll]

theorem Span.shift_zero (s : Span) : s.shift 0 = s := rfl

mutual

theorem Node.shift_zero : ∀ node : Node, node.shift 0 = node
  | .literal _ _ | .name _ _ => by rw [Node.shift, Span.shift_zero]
  | .binary _ _ lhs rhs => by
      rw [Node.shift, Span.shift_zero, Node.shift_zero lhs, Node.shift_zero rhs]
  | .negate _ operand => by rw [Node.shift, Span.shift_zero, Node.shift_zero operand]
  | .conditional _ _ test thenArm elseArm => by
      rw [Node.shift, Span.shift_zero, Node.shift_zero test, Node.shift_zero thenArm,
        Node.shift_zero elseArm]
  | .function _ ident params body => by
      have hparams : params.map (Ident.shift 0) = params := List.map_id params
      rw [Node.shift, Span.shift_zero, hparams, Node.shiftAll_zero body]
      rfl
  | .call _ callee args => by
      rw [Node.shift, Span.shift_zero, Node.shiftAll_zero args]
      rfl

theorem Node.shiftAll_zero : ∀ nodes : List Node, Node.shiftAll 0 nodes = nodes
  | [] => by rw [Node.shiftAll]
  | node :: rest => by rw [Node.shiftAll, Node.shift_zero node, Node.shiftAll_zero rest]

end

/-! ## Extended streams -/

namespace Stream

/-- What a parser leaves of the second stream. -/
structure RestOf (t s : Stream) : Prop where
  tokens : t.tokens <:+ s.tokens
  size_eq : t.size = s.size

namespace RestOf

theorem refl (s : Stream) : s.RestOf s := ⟨List.suffix_rfl, rfl⟩

theorem trans {s t u : Stream} (h : u.RestOf t) (h' : t.RestOf s) : u.RestOf s :=
  ⟨h.tokens.trans h'.tokens, h.size_eq.trans h'.size_eq⟩

theorem length_le {s t : Stream} (h : t.RestOf s) : t.tokens.length ≤ s.tokens.length :=
  h.tokens.length_le

end RestOf

/-- How the tokens of the second run come from those of the first: they are shifted, and others
    follow, the first of which is a newline. If none follow then the end is shifted as well. -/
structure Extension where
  bytes : Nat
  tail : List Token
  growth : Nat
  starts : ∀ t ∈ tail.head?, t.kind = .newline
  growth_eq : tail = [] → growth = bytes

theorem skipSeparators_rest (s : Stream) : s.skipSeparators.RestOf s :=
  ⟨List.dropWhile_suffix _, rfl⟩

theorem skipStatement_rest (s : Stream) : s.skipStatement.RestOf s :=
  ⟨List.dropWhile_suffix _, rfl⟩

namespace Extension

variable (E : Extension) {s : Stream}

def apply (s : Stream) : Stream := ⟨s.tokens.map (Token.shift E.bytes) ++ E.tail, s.size + E.growth⟩

/-- The first run is at its end, and the second one at the newline that follows. -/
def AtSeam (s : Stream) : Prop := s.tokens = [] ∧ E.tail ≠ []

theorem current_apply (h : ¬ E.AtSeam s) : (E.apply s).current = s.current.shift E.bytes := by
  unfold current apply
  cases hs : s.tokens with
  | nil =>
      have htail : E.tail = [] := by
        by_contra htail
        exact h ⟨hs, htail⟩
      rw [htail, E.growth_eq htail]
      rfl
  | cons t rest => rfl

theorem length_apply (s : Stream) :
    (E.apply s).tokens.length = s.tokens.length + E.tail.length := by
  rw [apply, List.length_append, List.length_map]

theorem AtSeam.kinds (h : E.AtSeam s) :
    s.current.kind = .eof ∧ (E.apply s).current.kind = .newline := by
  obtain ⟨hs, htail⟩ := h
  obtain ⟨t, rest, ht⟩ := List.exists_cons_of_ne_nil htail
  have hkind : t.kind = .newline := E.starts t (by rw [ht]; rfl)
  unfold current apply
  rw [hs, ht]
  exact ⟨rfl, hkind⟩

theorem advance_apply (h : s.current.kind ≠ .eof) : (E.apply s).advance = E.apply s.advance := by
  have hs := tokens_eq_cons h
  unfold apply advance
  rw [hs]
  rfl

theorem dropWhile_apply {p : TokenKind → Bool} (ts : List Token)
    (h : E.tail = [] ∨ ts.dropWhile (p ·.kind) ≠ []) :
    (ts.map (Token.shift E.bytes) ++ E.tail).dropWhile (p ·.kind) =
      (ts.dropWhile (p ·.kind)).map (Token.shift E.bytes) ++ E.tail := by
  have hmap : (ts.map (Token.shift E.bytes)).dropWhile (p ·.kind) =
      (ts.dropWhile (p ·.kind)).map (Token.shift E.bytes) := List.dropWhile_map
  rw [List.dropWhile_append, hmap]
  rcases h with htail | hne
  · simp [htail]
  · simp [hne]

theorem skipSeparators_apply (h : E.tail = [] ∨ s.skipSeparators.tokens ≠ []) :
    (E.apply s).skipSeparators = E.apply s.skipSeparators :=
  congrArg (Stream.mk · _) (E.dropWhile_apply s.tokens h)

/-- What follows, for the second run. -/
def after (s : Stream) : Stream := ⟨E.tail, s.size + E.growth⟩

theorem after_eq {t : Stream} (h : t.RestOf s) : E.after t = E.after s := by
  rw [after, after, h.size_eq]

theorem skipSeparators_after (h : s.skipSeparators.tokens = []) :
    (E.apply s).skipSeparators = (E.after s).skipSeparators := by
  have hdrop : (s.tokens.map (Token.shift E.bytes)).dropWhile (·.kind.isSeparator) = [] := by
    rw [List.dropWhile_map]
    exact List.map_eq_nil_iff.mpr h
  unfold Stream.skipSeparators apply after
  rw [List.dropWhile_append, hdrop]
  rfl

/-- Without a tail. -/
theorem skipStatement_apply (h : E.tail = []) :
    (E.apply s).skipStatement = E.apply s.skipStatement :=
  congrArg (Stream.mk · _)
    (E.dropWhile_apply (p := fun kind => !kind.isSeparator) s.tokens (.inl h))

end Extension

end Stream

open ScalarLang.Stream (Extension)

namespace Parser

variable {α β : Type} {E : Extension} {f : α → α} {g : β → β} {Q R : Stream → Prop}
  {x x' : Parser α} {s : Stream}

/-- If the first parser gives something, and leaves a stream that has the property, then the second
    one gives the same, shifted, on the extended stream. Without a tail it also fails in the same
    way. The first parser leaves some of the last tokens. -/
def Mirrors (E : Extension) (f : α → α) (Q : Stream → Prop) (x x' : Parser α) (s : Stream) : Prop :=
  match x s with
  | (.ok a, t) => t.RestOf s ∧
      (E.tail = [] ∨ Q t → x' (E.apply s) = (.ok (f a), E.apply t))
  | (.error e, t) => t.RestOf s ∧
      (E.tail = [] → x' (E.apply s) = (.error (e.shift E.bytes), E.apply t))

/-- Tokens are left. -/
def Open (s : Stream) : Prop := s.tokens ≠ []

def Anywhere (_ : Stream) : Prop := True

namespace Mirrors

theorem ok (h : Mirrors E f Q x x' s) {a : α} {t : Stream} (hx : x s = (.ok a, t)) :
    t.RestOf s ∧ (E.tail = [] ∨ Q t → x' (E.apply s) = (.ok (f a), E.apply t)) := by
  unfold Mirrors at h
  rwa [hx] at h

theorem error (h : Mirrors E f Q x x' s) {e : ParseError} {t : Stream} (hx : x s = (.error e, t)) :
    t.RestOf s ∧
      (E.tail = [] → x' (E.apply s) = (.error (e.shift E.bytes), E.apply t)) := by
  unfold Mirrors at h
  rwa [hx] at h

theorem pure (a : α) : Mirrors E f Q (pure a) (pure (f a)) s := ⟨.refl s, fun _ => rfl⟩

theorem pure_eq {a a' : α} (h : f a = a') : Mirrors E f Q (Pure.pure a) (Pure.pure a') s :=
  h ▸ pure a

theorem fail (kind : ParseErrorKind) (span : Span) (hint : Option String) :
    Mirrors E f Q (fail kind span hint) (fail kind (span.shift E.bytes) hint) s :=
  ⟨.refl s, fun _ => rfl⟩

/-- Before a tail nothing is said of a parser that fails. -/
theorem fail_before (h : E.tail ≠ []) (kind : ParseErrorKind) (span : Span) (hint : Option String) :
    Mirrors E f Q (Parser.fail kind span hint) x' s :=
  ⟨.refl s, fun htail => absurd htail h⟩

/-- Nor of one that gives something where the property does not hold. -/
theorem pure_before (h : E.tail ≠ []) (hs : ¬ Q s) (a : α) : Mirrors E f Q (Pure.pure a) x' s :=
  ⟨.refl s, fun h' => absurd h' (not_or.mpr ⟨h, hs⟩)⟩

theorem bind_where {k k' : α → Parser β} (hx : Mirrors E f Q x x' s)
    (hQ : ∀ a t b u, k a t = (.ok b, u) → R u → Q t)
    (hk : ∀ a t, x s = (.ok a, t) → t.RestOf s → Mirrors E g R (k a) (k' (f a)) t) :
    Mirrors E g R (x >>= k) (x' >>= k') s := by
  unfold Mirrors
  rw [bind_apply]
  rcases hr : x s with ⟨e | a, t⟩
  · obtain ⟨hrest, hsame⟩ := hx.error hr
    refine ⟨hrest, fun htail => ?_⟩
    rw [bind_apply, hsame htail]
  · obtain ⟨hrest, hsame⟩ := hx.ok hr
    have hnext := hk a t hr hrest
    dsimp only
    rcases hr' : k a t with ⟨e | b, u⟩
    · obtain ⟨hrest', hsame'⟩ := hnext.error hr'
      refine ⟨hrest'.trans hrest, fun htail => ?_⟩
      rw [bind_apply, hsame (.inl htail)]
      exact hsame' htail
    · obtain ⟨hrest', hsame'⟩ := hnext.ok hr'
      refine ⟨hrest'.trans hrest, fun h => ?_⟩
      rw [bind_apply, hsame (h.imp_right (hQ a t b u hr'))]
      exact hsame' h

theorem bind {k k' : α → Parser β} (hx : Mirrors E f Anywhere x x' s)
    (hk : ∀ a t, t.RestOf s → Mirrors E g R (k a) (k' (f a)) t) :
    Mirrors E g R (x >>= k) (x' >>= k') s :=
  hx.bind_where (fun _ _ _ _ _ _ => trivial) fun a t _ => hk a t

/-- What is done with a result without reading on. -/
theorem bind_pure {h h' : α → β} (hx : Mirrors E f Q x x' s) (hh : ∀ a, g (h a) = h' (f a)) :
    Mirrors E g Q (x >>= fun a => Pure.pure (h a)) (x' >>= fun a => Pure.pure (h' a)) s := by
  refine hx.bind_where ?_ fun a _ _ _ => pure_eq (hh a)
  rintro a t b u hu hQ
  obtain ⟨-, rfl⟩ := Prod.mk.inj (show (Except.ok (h a), t) = (.ok b, u) from hu)
  exact hQ

/-- The current token, or the end marker on the one side and a newline on the other. -/
theorem current {k k' : Token → Parser β}
    (h : Mirrors E g R (k s.current) (k' (s.current.shift E.bytes)) s)
    (hseam : E.AtSeam s → ∀ t t' : Token, t.kind = .eof → t'.kind = .newline →
      Mirrors E g R (k t) (k' t') s) :
    Mirrors E g R (Parser.current >>= k) (Parser.current >>= k') s := by
  by_cases hs : E.AtSeam s
  · obtain ⟨hkind, hkind'⟩ := hs.kinds
    exact hseam hs s.current (E.apply s).current hkind hkind'
  · rw [← E.current_apply hs] at h
    exact h

theorem advance {k k' : Unit → Parser β} (hs : s.current.kind ≠ .eof)
    (h : Mirrors E g R (k ()) (k' ()) s.advance) :
    Mirrors E g R (Parser.advance >>= k) (Parser.advance >>= k') s := by
  have hrest : s.advance.RestOf s := ⟨List.tail_suffix _, rfl⟩
  have hrun : (Parser.advance >>= k') (E.apply s) = k' () (E.apply s.advance) := by
    rw [← E.advance_apply hs]
    rfl
  have hrun₀ : (Parser.advance >>= k) s = k () s.advance := rfl
  unfold Mirrors at h ⊢
  rw [hrun, hrun₀]
  rcases hr : k () s.advance with ⟨e | b, u⟩ <;> rw [hr] at h <;>
    exact ⟨h.1.trans hrest, h.2⟩

theorem ite {c c' : Prop} [Decidable c] [Decidable c'] {y y' : Parser α} (hc : c ↔ c')
    (hpos : c → Mirrors E f Q x x' s) (hneg : ¬ c → Mirrors E f Q y y' s) :
    Mirrors E f Q (if c then x else y) (if c' then x' else y') s := by
  by_cases h : c
  · rw [if_pos h, if_pos (hc.mp h)]
    exact hpos h
  · rw [if_neg h, if_neg (mt hc.mpr h)]
    exact hneg h

/-- A test before parsers that go on. -/
theorem refuse {c c' : Prop} [Decidable c] [Decidable c'] {k k' : Unit → Parser β} (hc : c ↔ c')
    (kind : ParseErrorKind) (span : Span) (hint : Option String)
    (hk : ¬ c → Mirrors E g R (k ()) (k' ()) s) :
    Mirrors E g R (if c then Parser.fail kind span hint >>= k else k ())
      (if c' then Parser.fail kind (span.shift E.bytes) hint >>= k' else k' ()) s := by
  by_cases h : c
  · rw [if_pos h, if_pos (hc.mp h)]
    exact ⟨.refl s, fun _ => rfl⟩
  · rw [if_neg h, if_neg (mt hc.mpr h)]
    exact hk h

theorem unexpected (expected : Expected) (hint : Option String) :
    Mirrors E f Q (unexpected expected hint) (Parser.unexpected expected hint) s :=
  current (fail _ _ _) fun hs _ _ _ _ => fail_before hs.2 _ _ _

theorem unexpected_before (h : E.tail ≠ []) (expected : Expected) (hint : Option String) :
    Mirrors E f Q (Parser.unexpected expected hint) x' s :=
  ⟨.refl s, fun htail => absurd htail h⟩

theorem expect {kind : TokenKind} (hkind : kind ≠ .eof) :
    Mirrors E (Token.shift E.bytes) Q (expect kind) (Parser.expect kind) s := by
  refine current (ite Iff.rfl (fun h => ?_) fun _ => unexpected _ _) fun hs t t' ht _ => ?_
  · exact advance (h ▸ hkind) (pure _)
  · rw [if_neg (ht ▸ hkind.symm)]
    exact unexpected_before hs.2 _ _

theorem expectIdent : Mirrors E (Ident.shift E.bytes) Q expectIdent expectIdent s := by
  refine current (ite Iff.rfl (fun h => ?_) fun _ => fail _ _ _) fun hs t t' ht _ => ?_
  · exact advance (by rw [h]; exact TokenKind.noConfusion) (pure _)
  · rw [if_neg (by rw [ht]; exact TokenKind.noConfusion)]
    exact fail_before hs.2 _ _ _

/-- A statement that the end of the source ends is also ended by a newline. -/
theorem endOfStatement (closer : TokenKind) :
    Mirrors E id Anywhere (endOfStatement closer) (Parser.endOfStatement closer) s := by
  refine current (ite Iff.rfl (fun _ => pure _) fun _ => unexpected _ _) fun hs t t' _ ht' => ?_
  have hends : (t'.kind.isSeparator || decide (t'.kind = closer)) = true := by rw [ht']; rfl
  rw [if_pos hends]
  split
  · exact pure _
  · exact unexpected_before hs.2 _ _

theorem skipSeparators : Mirrors E id Open skipSeparators Parser.skipSeparators s := by
  refine ⟨s.skipSeparators_rest, fun h => ?_⟩
  exact congrArg (Prod.mk (Except.ok ())) (E.skipSeparators_apply h)

end Mirrors

/-- Where a token is found, one is left. -/
theorem open_of_expect {kind : TokenKind} (hkind : kind ≠ .eof) {k : Token → Parser β} {b : β}
    {t u : Stream} (h : (expect kind >>= k) t = (.ok b, u)) : Open t := by
  intro ht
  rw [bind_apply] at h
  rcases hr : expect kind t with ⟨e | a, t'⟩
  · rw [hr] at h
    cases h
  · obtain ⟨taken, htaken, rfl, -⟩ := Takes.expect hkind a t' hr
    rw [ht] at htaken
    cases htaken

/-! ## Expressions -/

section Nested

variable {n : Nat} {expr expr' : Parser Node} (hexpr : ∀ s : Stream, s.tokens.length < n →
  Mirrors E (Node.shift E.bytes) Anywhere expr expr' s)
include hexpr

theorem arguments_mirrors {count count' : Nat} (hcount : count ≤ count') {s : Stream}
    (hs : s.tokens.length < n) (hlen : s.tokens.length < count) :
    Mirrors E (Node.shiftAll E.bytes) Open (arguments expr count) (arguments expr' count') s := by
  induction count generalizing count' s with
  | zero => omega
  | succ count ih =>
      obtain ⟨count', rfl⟩ := Nat.exists_eq_succ_of_ne_zero (Nat.ne_zero_of_lt hcount)
      refine .current (.ite Iff.rfl (fun _ => .pure []) fun _ => ?_) fun hseam t t' ht _ => ?_
      · refine (hexpr s hs).bind fun arg t ht => ?_
        have hle := ht.length_le
        refine .current (.ite Iff.rfl (fun hcomma => ?_) fun _ => ?_) fun hseam u u' hu hu' => ?_
        · have hne : t.current.kind ≠ .eof := by rw [hcomma]; exact TokenKind.noConfusion
          have hlt := Stream.length_advance hne
          refine .advance hne ((ih (by omega) (by omega) (by omega)).bind_pure fun args => ?_)
          rw [Node.shiftAll]
        · exact .pure_eq (by rw [Node.shiftAll, Node.shiftAll])
        · rw [if_neg (by simp [hu]), if_neg (by simp [hu'])]
          exact .pure_eq (by rw [Node.shiftAll, Node.shiftAll])
      · rw [if_pos (by simp [ht])]
        exact .pure_before hseam.2 (fun h => h hseam.1) []

/-- A list of arguments is closed by a parenthesis, so it does not reach the end. -/
theorem nameOrCall_mirrors {count count' : Nat} (hcount : count ≤ count') {s : Stream}
    (hs : s.tokens.length ≤ n) (hlen : s.tokens.length ≤ count) :
    Mirrors E (Node.shift E.bytes) Anywhere (nameOrCall (arguments expr count))
      (nameOrCall (arguments expr' count')) s := by
  refine Mirrors.expectIdent.bind fun callee t ht => ?_
  have hle := ht.length_le
  have hname : Mirrors E (Node.shift E.bytes) Anywhere (pure (.name callee.span callee.text))
      (pure (.name (callee.shift E.bytes).span (callee.shift E.bytes).text)) t :=
    .pure_eq (by rw [Node.shift]; rfl)
  refine .current (.ite Iff.rfl (fun hopening => ?_) fun _ => hname) fun hseam u u' hu hu' => ?_
  · have hne : t.current.kind ≠ .eof := by rw [hopening]; exact TokenKind.noConfusion
    have hlt := Stream.length_advance hne
    refine .advance hne ?_
    refine (arguments_mirrors hexpr hcount (by omega) (by omega)).bind_where ?_ fun args v _ _ => ?_
    · exact fun _ _ _ _ h _ => open_of_expect (by simp) h
    · refine (Mirrors.expect (by simp)).bind_pure fun close => ?_
      rw [Node.shift, ← Span.hull_shift]
      rfl
  · rw [if_neg (by simp [hu]), if_neg (by simp [hu'])]
    exact hname

theorem parenthesized_mirrors {s : Stream} (hs : s.tokens.length ≤ n)
    (hopening : s.current.kind = .lParen) :
    Mirrors E (Node.shift E.bytes) Anywhere (parenthesized expr) (parenthesized expr') s := by
  have hne : s.current.kind ≠ .eof := by rw [hopening]; exact TokenKind.noConfusion
  have hlt := Stream.length_advance hne
  refine .advance hne ((hexpr _ (by omega)).bind fun inner t _ => ?_)
  exact (Mirrors.expect (by simp)).bind_pure fun _ => rfl

theorem conditional_mirrors {s : Stream} (hs : s.tokens.length ≤ n) (hne : s.current.kind ≠ .eof)
    (form : ConditionalForm) :
    Mirrors E (Node.shift E.bytes) Anywhere (conditional expr form) (conditional expr' form) s := by
  have hlt := Stream.length_advance hne
  refine .current (.advance hne ?_) fun hseam => ?_
  · refine (hexpr _ (by omega)).bind fun test t ht => ?_
    have hle := ht.length_le
    refine (hexpr _ (by omega)).bind fun thenArm u hu => ?_
    have hle' := hu.length_le
    refine .current (.ite Iff.rfl (fun helse => ?_) fun _ => .unexpected _ _) ?_
    · have hne' : u.current.kind ≠ .eof := by rw [helse]; exact TokenKind.noConfusion
      have hlt' := Stream.length_advance hne'
      refine .advance hne' ((hexpr _ (by omega)).bind_pure fun elseArm => ?_)
      rw [Node.shift, Node.span_shift, ← Span.hull_shift]
      rfl
    · intro hseam v v' hv _
      rw [if_neg (by simp [hv])]
      exact .unexpected_before hseam.2 _ _
  · exact absurd hseam.kinds.1 hne

theorem primary_mirrors {count count' : Nat} (hcount : count ≤ count') {s : Stream}
    (hs : s.tokens.length ≤ n) (hlen : s.tokens.length ≤ count) :
    Mirrors E (Node.shift E.bytes) Anywhere (primary expr count) (primary expr' count') s := by
  refine .current ?_ fun hseam t t' ht _ => ?_
  · have hliteral : (s.current.shift E.bytes).literal? = s.current.literal? := rfl
    rw [hliteral]
    split
    · rename_i value hvalue
      have hne : s.current.kind ≠ .eof := fun he => by
        have hkind := Token.literal_isLiteral hvalue
        rw [he] at hkind
        cases hkind
      exact .advance hne (.pure_eq (by rw [Node.shift]; rfl))
    · rename_i e hvalue
      have hne : s.current.kind ≠ .eof := fun he => by
        have hkind := Token.literal_isLiteral hvalue
        rw [he] at hkind
        cases hkind
      exact .advance hne (.fail _ _ _)
    · have hkind : (s.current.shift E.bytes).kind = s.current.kind := rfl
      rw [hkind]
      split
      · exact nameOrCall_mirrors hexpr hcount hs hlen
      · rename_i hopening
        exact parenthesized_mirrors hexpr hs hopening
      · rename_i hword
        exact conditional_mirrors hexpr hs (by simp [hword]) _
      · rename_i hword
        exact conditional_mirrors hexpr hs (by simp [hword]) _
      · exact .fail _ _ _
      · exact .fail _ _ _
  · have hliteral : t.literal? = none := by simp [Token.literal?, ht]
    simp only [hliteral, ht]
    exact .fail_before hseam.2 _ _ _

theorem operand_mirrors {count count' : Nat} (hcount : count ≤ count') {s : Stream}
    (hs : s.tokens.length ≤ n) (hlen : s.tokens.length < count) :
    Mirrors E (Node.shift E.bytes) Anywhere (operand expr count) (operand expr' count') s := by
  induction count generalizing count' s with
  | zero => omega
  | succ count ih =>
      obtain ⟨count', rfl⟩ := Nat.exists_eq_succ_of_ne_zero (Nat.ne_zero_of_lt hcount)
      have hprimary := primary_mirrors hexpr hcount hs (by omega)
      refine .current (.ite Iff.rfl (fun hminus => ?_) fun _ => hprimary)
        fun hseam t t' ht ht' => ?_
      · have hne : s.current.kind ≠ .eof := by rw [hminus]; exact TokenKind.noConfusion
        have hlt := Stream.length_advance hne
        have hnegate : Mirrors E (Node.shift E.bytes) Anywhere
            (operand expr count >>= fun inner =>
              pure (.negate (s.current.span.hull inner.span) inner))
            (operand expr' count' >>= fun inner =>
              pure (.negate ((s.current.shift E.bytes).span.hull inner.span) inner)) s.advance := by
          refine (ih (by omega) (by omega) (by omega)).bind_pure fun inner => ?_
          rw [Node.shift, Node.span_shift, ← Span.hull_shift]
          rfl
        refine .advance hne (.current (.ite Iff.rfl (fun hleast => ?_) fun _ => hnegate) ?_)
        · obtain ⟨hnumber, -⟩ := (Bool.and_eq_true _ _).mp hleast
          have hnumber := of_decide_eq_true hnumber
          refine .advance (by rw [hnumber]; exact TokenKind.noConfusion) (.pure_eq ?_)
          rw [Node.shift, ← Span.hull_shift]
          rfl
        · intro hseam t t' ht ht'
          rw [if_neg (by simp [ht]), if_neg (by simp [ht'])]
          exact hnegate
      · rw [if_neg (by simp [ht]), if_neg (by simp [ht'])]
        exact hprimary

end Nested

theorem climb_mirrors {n : Nat} {expr expr' : Nat → Parser Node} (hexpr : ∀ level (s : Stream),
    s.tokens.length < n → Mirrors E (Node.shift E.bytes) Anywhere (expr level) (expr' level) s)
    {level count count' : Nat} (hcount : count ≤ count') {s : Stream} (hs : s.tokens.length ≤ n)
    (hlen : s.tokens.length < count) (lhs : Node) :
    Mirrors E (Node.shift E.bytes) Anywhere (climb expr level count lhs)
      (climb expr' level count' (lhs.shift E.bytes)) s := by
  induction count generalizing count' s lhs with
  | zero => omega
  | succ count ih =>
      obtain ⟨count', rfl⟩ := Nat.exists_eq_succ_of_ne_zero (Nat.ne_zero_of_lt hcount)
      refine .current ?_ fun hseam t t' ht ht' => ?_
      · have hop : (s.current.shift E.bytes).kind.binaryOp? = s.current.kind.binaryOp? := rfl
        rw [hop]
        split
        · exact .pure lhs
        · rename_i op hop
          refine .ite Iff.rfl (fun _ => .pure lhs) fun _ => ?_
          have hne : s.current.kind ≠ .eof := fun he => by rw [he] at hop; cases hop
          have hlt := Stream.length_advance hne
          refine .advance hne ((hexpr _ _ (by omega)).bind fun rhs t ht => ?_)
          have hle := ht.length_le
          have hnode : (Node.binary (lhs.span.hull rhs.span) op lhs rhs).shift E.bytes =
              .binary ((lhs.shift E.bytes).span.hull (rhs.shift E.bytes).span) op
                (lhs.shift E.bytes) (rhs.shift E.bytes) := by
            rw [Node.shift, ← Span.hull_shift, ← Node.span_shift, ← Node.span_shift]
          rw [← hnode]
          exact ih (by omega) (by omega) (by omega) _
      · simp only [ht, ht', TokenKind.binaryOp?]
        exact .pure lhs

theorem expression_mirrors {fuel fuel' : Nat} (hfuel : fuel ≤ fuel') (level : Nat) {s : Stream}
    (hs : s.tokens.length < fuel) :
    Mirrors E (Node.shift E.bytes) Anywhere (expression fuel level) (expression fuel' level) s := by
  induction fuel generalizing fuel' level s with
  | zero => omega
  | succ fuel ih =>
      obtain ⟨fuel', rfl⟩ := Nat.exists_eq_succ_of_ne_zero (Nat.ne_zero_of_lt hfuel)
      have hnested : ∀ level (s : Stream), s.tokens.length < fuel → Mirrors E (Node.shift E.bytes)
          Anywhere (expression fuel level) (expression fuel' level) s :=
        fun level s hs => ih (by omega) level hs
      refine (operand_mirrors (hnested 0) hfuel (by omega) hs).bind fun lhs t ht => ?_
      have hle := ht.length_le
      exact climb_mirrors hnested hfuel (by omega) (by omega) lhs

/-! ## Fragments -/

/-- An expression has a token. -/
theorem length_lt_of_takes {expr : Parser Node} {s t : Stream} {node : Node}
    (h : Takes expr s fun ts node _ => Derives true .expression ts [node])
    (hread : expr s = (.ok node, t)) : t.tokens.length < s.tokens.length := by
  obtain ⟨ts, htaken, hnode⟩ := h node t hread
  have hpos := List.length_pos_iff.mpr (hnode.framed (by simp)).ne_nil
  rw [htaken, List.length_append]
  omega

/-- At the end a body has no more statements. -/
theorem body_end (expr : Parser Node) (count : Nat) {s : Stream} (hs : s.tokens = []) :
    body expr count s = (.ok [], s) := by
  cases count with
  | zero => rfl
  | succ count =>
      have hkind : s.current.kind = .eof := by rw [Stream.current, hs]; rfl
      show (if _ then _ else _ : Parser (List Node)) s = _
      rw [if_pos (by simp [hkind])]
      rfl

theorem body_mirrors {n : Nat} {expr expr' : Parser Node} (hexpr : ∀ s : Stream,
    s.tokens.length < n → Mirrors E (Node.shift E.bytes) Anywhere expr expr' s)
    (htakes : ∀ s : Stream, s.tokens.length < n →
      Takes expr s fun ts node _ => Derives true .expression ts [node])
    {count count' : Nat} (hcount : count ≤ count') {s : Stream} (hs : s.tokens.length < n)
    (hlen : s.tokens.length < count) :
    Mirrors E (Node.shiftAll E.bytes) Open (body expr count) (body expr' count') s := by
  induction count generalizing count' s with
  | zero => omega
  | succ count ih =>
      obtain ⟨count', rfl⟩ := Nat.exists_eq_succ_of_ne_zero (Nat.ne_zero_of_lt hcount)
      refine .current (.ite Iff.rfl (fun _ => .pure []) fun _ => ?_) fun hseam t t' ht _ => ?_
      · refine .refuse Iff.rfl _ _ _ fun _ => ?_
        refine (hexpr s hs).bind_where (fun _ _ _ _ _ _ => trivial) fun node t hread _ => ?_
        have hlt := length_lt_of_takes (htakes s hs) hread
        refine (Mirrors.endOfStatement _).bind fun _ u hu => ?_
        refine Mirrors.skipSeparators.bind_where ?_ fun _ v _ hv => ?_
        · intro _ v b w hw hopen hv
          rw [bind_apply, body_end expr count hv] at hw
          obtain ⟨-, rfl⟩ := Prod.mk.inj (show (Except.ok [node], v) = (.ok b, w) from hw)
          exact hopen hv
        · have hle := (hv.trans hu).length_le
          exact (ih (by omega) (by omega) (by omega)).bind_pure fun rest => by rw [Node.shiftAll]
      · rw [if_pos (by simp [ht])]
        exact .pure_before hseam.2 (fun h => h hseam.1) []

/-- A brace closes a body, so the body does not reach the end. -/
theorem functionDef_mirrors {n : Nat} {expr expr' : Parser Node} (hexpr : ∀ s : Stream,
    s.tokens.length < n → Mirrors E (Node.shift E.bytes) Anywhere expr expr' s)
    (htakes : ∀ s : Stream, s.tokens.length < n →
      Takes expr s fun ts node _ => Derives true .expression ts [node])
    {count count' : Nat} (hcount : count ≤ count') {s : Stream} (hs : s.tokens.length < n)
    (hlen : s.tokens.length < count) :
    Mirrors E (Node.shift E.bytes) Anywhere (functionDef expr count) (functionDef expr' count')
      s := by
  refine (Mirrors.expect (by simp)).bind fun start s₁ h₁ => ?_
  refine Mirrors.expectIdent.bind fun name s₂ h₂ => ?_
  refine (Mirrors.expect (by simp)).bind fun _ s₃ h₃ => ?_
  refine .current (.refuse Iff.rfl _ _ _ fun _ => ?_) fun hseam t t' ht _ => ?_
  · refine (Mirrors.expect (by simp)).bind fun _ s₄ h₄ => ?_
    refine (Mirrors.expect (by simp)).bind fun _ s₅ h₅ => ?_
    refine Mirrors.skipSeparators.bind_where ?_ fun _ s₆ _ h₆ => ?_
    · intro _ t b u hu _ ht
      rw [bind_apply, body_end expr count ht] at hu
      exact open_of_expect (by simp) hu ht
    · have hle := (h₆.trans (h₅.trans (h₄.trans (h₃.trans (h₂.trans h₁))))).length_le
      refine (body_mirrors hexpr htakes hcount (by omega) (by omega)).bind_where
        (fun _ _ _ _ hu _ => open_of_expect (by simp) hu) fun nodes s₇ _ _ => ?_
      refine (Mirrors.expect (by simp)).bind fun close s₈ _ => ?_
      dsimp only [Token.shift]
      rw [Span.hull_shift]
      refine .refuse (by rw [Node.shiftAll_isEmpty]) _ _ _ fun _ => .pure_eq ?_
      rw [Node.shift]
      rfl
  · rw [if_pos (by simp [ht])]
    exact ⟨.refl _, fun htail => absurd htail hseam.2⟩

theorem statement_mirrors {fuel fuel' : Nat} (hfuel : fuel ≤ fuel') {s : Stream}
    (hs : s.tokens.length < fuel) :
    Mirrors E (Node.shift E.bytes) Anywhere (statement fuel) (statement fuel') s := by
  have hexpr : ∀ {s : Stream}, s.tokens.length < fuel →
      Mirrors E (Node.shift E.bytes) Anywhere (expression fuel 0) (expression fuel' 0) s :=
    expression_mirrors hfuel 0
  refine .current (.ite Iff.rfl (fun _ => ?_) fun _ => hexpr hs) fun _ t t' ht ht' => ?_
  · exact functionDef_mirrors (fun _ => hexpr) (fun _ => expression_derives) hfuel hs hs
  · rw [if_neg (by simp [ht]), if_neg (by simp [ht'])]
    exact hexpr hs

theorem topLevel_mirrors {fuel fuel' : Nat} (hfuel : fuel ≤ fuel') {s : Stream}
    (hs : s.tokens.length < fuel) :
    Mirrors E (Node.shift E.bytes) Anywhere (topLevel fuel) (topLevel fuel') s :=
  (statement_mirrors hfuel hs).bind fun _ _ _ => (Mirrors.endOfStatement _).bind_pure fun _ => rfl

theorem topLevel_length_lt {fuel : Nat} {s t : Stream} {node : Node} (hs : s.tokens.length < fuel)
    (h : topLevel fuel s = (.ok node, t)) : t.tokens.length < s.tokens.length := by
  obtain ⟨ts, htaken, hnode, -⟩ := topLevel_takes hs node t h
  have hpos := List.length_pos_iff.mpr (hnode.framed (by simp)).ne_nil
  rw [htaken, List.length_append]
  omega

theorem collect_end (fuel turns : Nat) {s : Stream} (hs : s.tokens = []) :
    collect fuel turns s = ([], []) := by
  cases turns with
  | zero => rfl
  | succ turns => rw [collect, if_pos (by rw [hs]; rfl)]

theorem collect_ok {fuel : Nat} (turns : Nat) {s t : Stream} {node : Node} (hs : s.tokens ≠ [])
    (h : topLevel fuel s = (.ok node, t)) :
    collect fuel (turns + 1) s = (node :: (collect fuel turns t.skipSeparators).1,
      (collect fuel turns t.skipSeparators).2) := by
  rw [collect, if_neg (by simpa using hs), h]

theorem collect_error {fuel : Nat} (turns : Nat) {s t : Stream} {e : ParseError}
    (hs : s.tokens ≠ []) (h : topLevel fuel s = (.error e, t)) :
    collect fuel (turns + 1) s = ((collect fuel turns t.skipStatement.skipSeparators).1,
      e :: (collect fuel turns t.skipStatement.skipSeparators).2) := by
  rw [collect, if_neg (by simpa using hs), h]

/-- After an error something is dropped. -/
theorem skipStatement_length_lt {s t : Stream} (h : t.RestOf s.skipSeparators)
    (hs : s.skipSeparators.tokens ≠ []) :
    t.skipStatement.tokens.length < s.skipSeparators.tokens.length := by
  have hdrop := t.skipStatement_rest.length_le
  rcases Nat.lt_or_ge t.tokens.length s.skipSeparators.tokens.length with hlt | hge
  · exact Nat.lt_of_le_of_lt hdrop hlt
  · -- Nothing has been read, and what comes next is no separator.
    have hsame : t.tokens = s.skipSeparators.tokens := h.tokens.eq_of_length_le hge
    obtain ⟨token, rest, htokens⟩ := List.exists_cons_of_ne_nil hs
    have hhead := List.head?_dropWhile_not (·.kind.isSeparator) s.tokens
    rw [show s.tokens.dropWhile _ = token :: rest from htokens] at hhead
    have hnot : token.kind.isSeparator = false := by simpa using hhead
    unfold Stream.skipStatement
    rw [hsame, htokens, List.dropWhile_cons_of_pos (by rw [hnot]; rfl)]
    exact Nat.lt_succ_of_le (List.dropWhile_suffix _).length_le

/-- What follows the statements of the first run is read after them. If there is something then
    these must be without errors, for an error may skip it. -/
theorem collect_mirrors {fuel fuel' : Nat} (hfuel : fuel ≤ fuel')
    {last : List Node × List ParseError} {turns turns' : Nat} {s : Stream}
    (hs : s.skipSeparators.tokens.length < fuel)
    (hturns : s.skipSeparators.tokens.length ≤ turns)
    (hturns' : (E.apply s).skipSeparators.tokens.length ≤ turns')
    (hlast : ∀ n, (E.after s).skipSeparators.tokens.length ≤ n →
      collect fuel' n (E.after s).skipSeparators = last)
    (h : E.tail = [] ∨ (collect fuel turns s.skipSeparators).2 = []) :
    collect fuel' turns' (E.apply s).skipSeparators =
      (Node.shiftAll E.bytes (collect fuel turns s.skipSeparators).1 ++ last.1,
        (collect fuel turns s.skipSeparators).2.map (.shift E.bytes) ++ last.2) := by
  induction turns generalizing turns' s with
  | zero =>
      have hend := List.length_eq_zero_iff.mp (Nat.le_zero.mp hturns)
      rw [E.skipSeparators_after hend] at hturns' ⊢
      rw [hlast turns' hturns', collect, Node.shiftAll]
      rfl
  | succ turns ih =>
      by_cases hend : s.skipSeparators.tokens = []
      · rw [E.skipSeparators_after hend] at hturns' ⊢
        rw [hlast turns' hturns', collect_end _ _ hend, Node.shiftAll]
        rfl
      · have hskip := E.skipSeparators_apply (.inr hend)
        have hne : (E.apply s.skipSeparators).tokens ≠ [] := by
          simp [Extension.apply, hend]
        rw [hskip] at hturns' ⊢
        obtain ⟨turns', rfl⟩ := Nat.exists_eq_succ_of_ne_zero
          (Nat.ne_zero_of_lt (Nat.lt_of_lt_of_le (List.length_pos_iff.mpr hne) hturns'))
        rw [E.length_apply] at hturns'
        have hrun := topLevel_mirrors (E := E) hfuel hs
        rcases hr : topLevel fuel s.skipSeparators with ⟨e | node, t⟩
        · rw [collect_error turns hend hr] at h ⊢
          have htail : E.tail = [] := h.resolve_right (List.cons_ne_nil _ _)
          obtain ⟨hrest, hsame⟩ := hrun.error hr
          have hlt := skipStatement_length_lt hrest hend
          have hle := t.skipStatement.skipSeparators_rest.length_le
          have hle' := (E.apply t.skipStatement).skipSeparators_rest.length_le
          have hafter := E.after_eq
            (t.skipStatement_rest.trans (hrest.trans s.skipSeparators_rest))
          rw [E.length_apply] at hle'
          rw [collect_error turns' hne (hsame htail), E.skipStatement_apply htail,
            ih (by omega) (by omega) (by omega) (hafter ▸ hlast) (.inl htail)]
          rfl
        · rw [collect_ok turns hend hr] at h ⊢
          obtain ⟨hrest, hsame⟩ := hrun.ok hr
          have hlt := topLevel_length_lt hs hr
          have hle := t.skipSeparators_rest.length_le
          have hle' := (E.apply t).skipSeparators_rest.length_le
          have hafter := E.after_eq (hrest.trans s.skipSeparators_rest)
          rw [E.length_apply] at hle'
          rw [collect_ok turns' hne (hsame (.inr trivial)),
            ih (by omega) (by omega) (by omega) (hafter ▸ hlast) h, Node.shiftAll]
          rfl

end Parser

/-! ## Lines -/

namespace Stream

/-- All tokens further on. -/
def Extension.moved (bytes : Nat) : Extension where
  bytes := bytes
  tail := []
  growth := bytes
  starts := by simp
  growth_eq := fun _ => rfl

/-- A newline at the end of a stream, and another stream after it. -/
def Extension.line (s second : Stream) : Extension where
  bytes := 0
  tail := Token.newline s.size :: second.tokens.map (Token.shift (s.size + 1))
  growth := second.size + 1
  starts := by rintro _ ⟨⟩; rfl
  growth_eq := fun h => absurd h (List.cons_ne_nil _ _)

theorem ofSource_newline (first second : String) :
    ofSource (first ++ "\n" ++ second) =
      (Extension.line (ofSource first) (ofSource second)).apply (ofSource first) := by
  have hzero : Token.shift 0 = id := rfl
  have hkinds : (fun t : Token => !t.kind.isTrivia) ∘ Token.shift (byteLength first.toList + 1) =
      fun t => !t.kind.isTrivia := rfl
  unfold ofSource Extension.apply Extension.line
  dsimp only
  rw [Token.scan_newline, Token.byteLength_newline, List.filter_append, hzero, List.map_id,
    List.filter_cons_of_pos rfl, List.filter_map, hkinds]
  congr 1
  omega

/-- After the newline the second stream is read. -/
theorem skipSeparators_line (s second : Stream) :
    ((Extension.line s second).after s).skipSeparators =
      ((Extension.moved (s.size + 1)).apply second).skipSeparators := by
  unfold Stream.skipSeparators Extension.after Extension.apply Extension.line Extension.moved
  dsimp only
  rw [List.dropWhile_cons_of_pos rfl, List.append_nil]
  congr 1
  omega

end Stream

namespace Parser

/-- All statements and errors, if the characters of the source are all known. -/
def collected (s : Stream) : List Node × List ParseError :=
  collect (s.tokens.length + 1) s.tokens.length s.skipSeparators

theorem collect_moved {fuel turns bytes : Nat} {s : Stream} (hfuel : s.tokens.length < fuel)
    (hturns : ((Extension.moved bytes).apply s).skipSeparators.tokens.length ≤ turns) :
    collect fuel turns ((Extension.moved bytes).apply s).skipSeparators =
      (Node.shiftAll bytes (collected s).1, (collected s).2.map (.shift bytes)) := by
  have hs := s.skipSeparators_rest.length_le
  have hlast : ∀ n, ((Extension.moved bytes).after s).skipSeparators.tokens.length ≤ n →
      collect fuel n ((Extension.moved bytes).after s).skipSeparators = ([], []) :=
    fun n _ => collect_end fuel n rfl
  have hrun := collect_mirrors hfuel (Nat.lt_succ_of_le hs) hs hturns hlast (.inl rfl)
  rwa [List.append_nil, List.append_nil] at hrun

theorem collected_line {s : Stream} (second : Stream) (h : (collected s).2 = []) :
    collected ((Extension.line s second).apply s) =
      ((collected s).1 ++ Node.shiftAll (s.size + 1) (collected second).1,
        (collected second).2.map (.shift (s.size + 1))) := by
  set E := Extension.line s second
  have hs := s.skipSeparators_rest.length_le
  have hlen : (E.apply s).tokens.length = s.tokens.length + (second.tokens.length + 1) := by
    rw [E.length_apply]
    simp [E, Extension.line]
  have hlast : ∀ n, (E.after s).skipSeparators.tokens.length ≤ n →
      collect ((E.apply s).tokens.length + 1) n (E.after s).skipSeparators =
        (Node.shiftAll (s.size + 1) (collected second).1,
          (collected second).2.map (.shift (s.size + 1))) := by
    rw [Stream.skipSeparators_line]
    exact fun n hn => collect_moved (by omega) hn
  have hrun : collected (E.apply s) =
      (Node.shiftAll E.bytes (collected s).1 ++ Node.shiftAll (s.size + 1) (collected second).1,
        (collected s).2.map (.shift E.bytes) ++ (collected second).2.map (.shift (s.size + 1))) :=
    collect_mirrors (by omega) (Nat.lt_succ_of_le hs) hs
      (E.apply s).skipSeparators_rest.length_le hlast (.inr h)
  rw [hrun, h, show E.bytes = 0 from rfl, Node.shiftAll_zero]
  rfl

end Parser

namespace Fragment

/-- All that is wrong with a source: its unknown characters, or what the parser finds. -/
def errors (source : String) : List ParseError :=
  if Token.lexErrors source = [] then (Parser.collected (Stream.ofSource source)).2
  else (Token.lexErrors source).map .ofLexError

theorem parse_eq (source : String) :
    parse source =
      if errors source = [] then .ok ⟨(Parser.collected (Stream.ofSource source)).1⟩
      else .error (errors source) := by
  unfold parse errors
  split
  · rename_i hlex
    unfold Parser.collected
    rw [if_pos hlex]
    dsimp only
    split
    · rename_i nodes hcollect
      rw [hcollect, if_pos rfl]
    · rename_i nodes errors hne hcollect
      rw [hcollect, if_neg hne]
  · rename_i hlex
    rw [if_neg hlex, if_neg (by simpa using hlex)]

theorem parse_ok_iff {source : String} {f : Fragment} :
    parse source = .ok f ↔
      errors source = [] ∧ ⟨(Parser.collected (Stream.ofSource source)).1⟩ = f := by
  rw [parse_eq]
  split <;> simp_all

theorem parse_error_iff {source : String} {es : List ParseError} :
    parse source = .error es ↔ errors source ≠ [] ∧ errors source = es := by
  rw [parse_eq]
  split <;> simp_all

theorem known_of_errors {source : String} (h : errors source = []) :
    Token.lexErrors source = [] ∧ (Parser.collected (Stream.ofSource source)).2 = [] := by
  unfold errors at h
  split at h
  · exact ⟨‹_›, h⟩
  · exact absurd (List.map_eq_nil_iff.mp h) ‹_›

theorem errors_newline {first : String} (second : String) (h : errors first = []) :
    errors (first ++ "\n" ++ second) =
      (errors second).map (.shift (byteLength first.toList + 1)) := by
  obtain ⟨hlex, hcollect⟩ := known_of_errors h
  have hwhole := Parser.collected_line (Stream.ofSource second) hcollect
  unfold errors
  rw [Token.lexErrors_newline, hlex, List.nil_append, Stream.ofSource_newline, hwhole]
  by_cases hsecond : Token.lexErrors second = []
  · rw [hsecond, List.map_nil, if_pos rfl, if_pos rfl]
    rfl
  · rw [if_neg hsecond, if_neg (by simpa using hsecond), List.map_map, List.map_map]
    rfl

end Fragment

/-- Two lines are scanned apart, and if the first is accepted then they are parsed apart: the
    statements of the second follow those of the first, and what is wrong is what is wrong with the
    second. Everything of the second line is shifted to where it stands. -/
theorem lines_are_read_apart (first second : String) :
    Token.tokenize (first ++ "\n" ++ second) =
        (Token.tokenize first).dropLast ++ [Token.newline (byteLength first.toList)] ++
          (Token.tokenize second).map (Token.shift (byteLength first.toList + 1)) ∧
      Token.lexErrors (first ++ "\n" ++ second) =
        Token.lexErrors first ++
          (Token.lexErrors second).map (.shift (byteLength first.toList + 1)) ∧
      ∀ f, Fragment.parse first = .ok f →
        (∀ g, Fragment.parse second = .ok g →
          Fragment.parse (first ++ "\n" ++ second) =
            .ok ⟨f.nodes ++ (g.shift (byteLength first.toList + 1)).nodes⟩) ∧
        (∀ errors, Fragment.parse second = .error errors →
          Fragment.parse (first ++ "\n" ++ second) =
            .error (errors.map (.shift (byteLength first.toList + 1)))) := by
  refine ⟨Token.tokenize_newline first second, Token.lexErrors_newline first second,
    fun f hf => ?_⟩
  obtain ⟨hfirst, rfl⟩ := Fragment.parse_ok_iff.mp hf
  have herrors := Fragment.errors_newline second hfirst
  have hwhole := Parser.collected_line (Stream.ofSource second) (Fragment.known_of_errors hfirst).2
  rw [← Stream.ofSource_newline] at hwhole
  refine ⟨fun g hg => ?_, fun es hes => ?_⟩
  · obtain ⟨hsecond, rfl⟩ := Fragment.parse_ok_iff.mp hg
    refine Fragment.parse_ok_iff.mpr ⟨?_, ?_⟩
    · rw [herrors, hsecond, List.map_nil]
    · rw [hwhole]
      rfl
  · obtain ⟨hsecond, rfl⟩ := Fragment.parse_error_iff.mp hes
    exact Fragment.parse_error_iff.mpr ⟨by simpa [herrors] using hsecond, herrors⟩

def definitionLine : String := "def f() \x7b -9223372036854775808; 1 \x7d // é"

/-- The second lines are a call, and a call that is not closed. -/
theorem definition_line_read_apart :
    ∃ f g errors, Fragment.parse definitionLine = .ok f ∧ Fragment.parse "f()" = .ok g ∧
      Fragment.parse (definitionLine ++ "\n" ++ "f()") = .ok ⟨f.nodes ++ (g.shift 42).nodes⟩ ∧
      Fragment.parse "f(1, 2; 3" = .error errors ∧
      Fragment.parse (definitionLine ++ "\n" ++ "f(1, 2; 3") =
        .error (errors.map (.shift 42)) := by
  have hok : (Fragment.parse definitionLine).toOption.isSome = true := by decide +kernel
  have hcall : (Fragment.parse "f()").toOption.isSome = true := by decide +kernel
  have hopen : (Fragment.parse "f(1, 2; 3").toOption.isSome = false := by decide +kernel
  have hoffset : byteLength definitionLine.toList + 1 = 42 := by decide +kernel
  rcases hf : Fragment.parse definitionLine with _ | f <;> rw [hf] at hok
  · cases hok
  rcases hg : Fragment.parse "f()" with _ | g <;> rw [hg] at hcall
  · cases hcall
  rcases he : Fragment.parse "f(1, 2; 3" with errors | _ <;> rw [he] at hopen
  · have hread := (lines_are_read_apart definitionLine "f()").2.2 f hf
    have hread' := (lines_are_read_apart definitionLine "f(1, 2; 3").2.2 f hf
    rw [hoffset] at hread hread'
    exact ⟨f, g, errors, rfl, rfl, hread.1 g hg, rfl, hread'.2 errors he⟩
  · cases hopen

end ScalarLang
