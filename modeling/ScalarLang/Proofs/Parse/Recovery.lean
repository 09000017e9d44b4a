import Mathlib
import ScalarLang.Proofs.Parse.Blame
import ScalarLang.Proofs.Parse.Nesting
import ScalarLang.Proofs.Token.Lossless

/-
  Going on after errors.
  Each turn of reading a fragment takes a token, since what comes first is no separator: either the
  statement has a token, or what is dropped after the error has one. An error starts no later than
  the first token that is left, and at least that token is dropped before the next turn. So errors
  come in the order of the source. What is dropped ends with a separator, or with the source, so
  there is at most one error more than there are separators.
-/

namespace ScalarLang

/-! ## Turns -/

namespace Nesting

/-- The streams that turns start with. -/
inductive Visits (source : String) : Stream → Prop
  | start : Visits source (Stream.ofSource source).skipSeparators
  | turn {s t : Stream} {result : Except ParseError Node} (hs : Visits source s)
      (hne : s.tokens ≠ []) (h : Settles (turn · s) (result, t)) : Visits source t

/-- A turn ends, with fewer tokens left, which are the last ones of those before. -/
theorem turn_progress {s : Stream} (hne : s.skipSeparators.tokens ≠ []) :
    ∃ (result : Except ParseError Node) (t : Stream),
      Settles (turn · s.skipSeparators) (result, t.skipSeparators) ∧
      t.skipSeparators.RestOf s.skipSeparators ∧
      t.skipSeparators.tokens.length < s.skipSeparators.tokens.length := by
  have hfuel := Nat.lt_succ_self s.skipSeparators.tokens.length
  have hagrees := topLevel_agrees hfuel
  rcases hr : Parser.topLevel _ s.skipSeparators with ⟨e | node, t⟩ <;>
    obtain ⟨hrest, hsame⟩ := hagrees.run hr
  · have hlt := Parser.skipStatement_length_lt hrest hne
    have hle := t.skipStatement.skipSeparators_rest
    exact ⟨_, t.skipStatement, turn_error hsame, hle.trans (t.skipStatement_rest.trans hrest),
      Nat.lt_of_le_of_lt hle.length_le hlt⟩
  · have hlt := Parser.topLevel_length_lt hfuel hr
    exact ⟨_, t, turn_ok hsame, t.skipSeparators_rest.trans hrest,
      Nat.lt_of_le_of_lt t.skipSeparators_rest.length_le hlt⟩

/-- Turns start after separators, with tokens of the source. -/
theorem Visits.rest {source : String} {s : Stream} (h : Visits source s) :
    (∃ t : Stream, s = t.skipSeparators) ∧ s.RestOf (Stream.ofSource source) := by
  induction h with
  | start => exact ⟨⟨_, rfl⟩, Stream.skipSeparators_rest _⟩
  | turn hs hne h ih =>
      obtain ⟨⟨s, rfl⟩, hrest⟩ := ih
      obtain ⟨result, t, hturn, hleft, -⟩ := turn_progress hne
      obtain ⟨-, rfl⟩ := Prod.mk.inj (hturn.unique h)
      exact ⟨⟨t, rfl⟩, hleft.trans hrest⟩

end Nesting

/-! ## Errors in order -/

/-- Every token has a character. -/
def Stream.Solid (s : Stream) : Prop := ∀ t ∈ s.tokens, t.span.start < t.span.stop

theorem Stream.Solid.rest {s t : Stream} (hs : s.Solid) (h : t.RestOf s) : t.Solid :=
  fun token htoken => hs token (h.tokens.mem htoken)

theorem Stream.skip_rest (s : Stream) : s.skipStatement.skipSeparators.RestOf s :=
  s.skipStatement.skipSeparators_rest.trans s.skipStatement_rest

/-- Before the next turn at least the first of the tokens is dropped. -/
theorem Stream.skip_suffix {s : Stream} {t : Token} {rest : List Token}
    (hs : s.tokens = t :: rest) : s.skipStatement.skipSeparators.tokens <:+ rest := by
  show ((s.tokens.dropWhile fun t => !t.kind.isSeparator).dropWhile _) <:+ rest
  rw [hs]
  by_cases hkind : t.kind.isSeparator = true
  · rw [List.dropWhile_cons_of_neg (by simp [hkind])]
    rw [List.dropWhile_cons_of_pos (p := fun t : Token => t.kind.isSeparator) hkind]
    exact List.dropWhile_suffix _
  · rw [List.dropWhile_cons_of_pos (by simp [hkind])]
    exact (List.dropWhile_suffix _).trans (List.dropWhile_suffix _)

theorem Span.hullClosed_start (lo : Nat) : HullClosed (lo ≤ ·.start) :=
  fun _ _ ha hb => Nat.le_min.mpr ⟨ha, hb⟩

theorem Stream.LaidFrom.marked {s : Stream} {size lo : Nat} (h : s.LaidFrom size lo) :
    s.Marked (lo ≤ ·.start) size lo := by
  have hle := h.tokens.le_start
  exact ⟨h, fun t ht => hle t (List.mem_append_left _ ht),
    hle (.eof size) (List.mem_append_right _ List.mem_cons_self)⟩

namespace Parser

variable {fuel size lo : Nat} {s : Stream}

/-- The next turn starts after an error that starts no later than the tokens that are left. -/
theorem skip_laid (hs : s.LaidFrom size lo) (hsolid : s.Solid)
    (hne : s.skipStatement.skipSeparators.tokens ≠ []) :
    s.skipStatement.skipSeparators.LaidFrom size (lo + 1) := by
  have hrest := s.skip_rest
  obtain ⟨hsize, hlaid⟩ := hs
  cases htokens : s.tokens with
  | nil =>
      have hle := hrest.tokens
      rw [htokens] at hle
      exact absurd (List.suffix_nil.mp hle) hne
  | cons t rest =>
      rw [htokens] at hlaid
      obtain ⟨hlo, -, hafter⟩ := hlaid
      have hpos := hsolid t (by rw [htokens]; exact List.mem_cons_self)
      exact ⟨hrest.size_eq.trans hsize,
        (hafter.mono (by omega)).sublist (Stream.skip_suffix htokens).sublist⟩

theorem collect_sorted (turns : Nat) (hs : s.LaidFrom size lo) (hsolid : s.Solid)
    (hfuel : s.tokens.length < fuel) :
    (∀ e ∈ (collect fuel turns s).2, lo ≤ e.span.start) ∧
      (collect fuel turns s).2.Pairwise fun e e' => e.span.start < e'.span.start := by
  induction turns generalizing s lo with
  | zero => simp [collect]
  | succ turns ih =>
      by_cases hne : s.tokens = []
      · simp [collect_end _ _ hne]
      · have hagrees := Nesting.topLevel_agrees hfuel
        have hpoints := topLevel_points (Span.hullClosed_start lo) fuel lo s hs.marked
        rcases hr : topLevel fuel s with ⟨e | node, t⟩ <;> obtain ⟨hrest, -⟩ := hagrees.run hr
        · obtain ⟨hi, hle, hleft, hstart, hend⟩ := hpoints.error hr
          rw [collect_error turns hne hr]
          by_cases hnext : t.skipStatement.skipSeparators.tokens = []
          · rw [collect_end _ _ hnext]
            exact ⟨List.forall_mem_singleton.mpr hstart, List.pairwise_singleton _ _⟩
          · have hskip := t.skip_rest.trans hrest
            have hlen := hskip.length_le
            obtain ⟨hlater, hsorted⟩ := ih (skip_laid hleft.laid (hsolid.rest hrest) hnext)
              (hsolid.rest hskip) (by omega)
            refine ⟨List.forall_mem_cons.mpr ⟨hstart, fun e' he' => ?_⟩,
              .cons (fun e' he' => ?_) hsorted⟩
            · have hlate := hlater e' he'
              omega
            · have hlate := hlater e' he'
              omega
        · obtain ⟨hi, hle, hleft, -⟩ := hpoints.ok hr
          rw [collect_ok turns hne hr]
          have hskip := t.skipSeparators_rest.trans hrest
          have hlen := hskip.length_le
          obtain ⟨hlater, hsorted⟩ :=
            ih hleft.laid.skipSeparators (hsolid.rest hskip) (by omega)
          exact ⟨fun e he => hle.trans (hlater e he), hsorted⟩

/-! ## Errors and separators -/

/-- The separators that are left. -/
def separatorCount (s : Stream) : Nat := s.tokens.countP (·.kind.isSeparator)

theorem separatorCount_le {t : Stream} (h : t.RestOf s) : separatorCount t ≤ separatorCount s :=
  h.tokens.sublist.countP_le

/-- If a turn follows an error then a separator was dropped. -/
theorem separatorCount_skip (hne : s.skipStatement.skipSeparators.tokens ≠ []) :
    separatorCount s.skipStatement.skipSeparators < separatorCount s := by
  have hle := separatorCount_le s.skipStatement_rest
  cases htokens : s.skipStatement.tokens with
  | nil =>
      have hrest := s.skipStatement.skipSeparators_rest.tokens
      rw [htokens] at hrest
      exact absurd (List.suffix_nil.mp hrest) hne
  | cons t rest =>
      have hkind : t.kind.isSeparator = true := by
        have hhead := List.head?_dropWhile_not (fun t : Token => !t.kind.isSeparator) s.tokens
        rw [show s.tokens.dropWhile _ = t :: rest from htokens] at hhead
        simpa using hhead
      have hskip : separatorCount s.skipStatement.skipSeparators ≤
          rest.countP (·.kind.isSeparator) := by
        unfold separatorCount Stream.skipSeparators
        rw [htokens, List.dropWhile_cons_of_pos (p := fun t : Token => t.kind.isSeparator) hkind]
        exact (List.dropWhile_sublist _).countP_le
      have hcount : separatorCount s.skipStatement = rest.countP (·.kind.isSeparator) + 1 := by
        rw [separatorCount, htokens]
        exact List.countP_cons_of_pos hkind
      omega

theorem collect_count (turns : Nat) (hfuel : s.tokens.length < fuel) :
    (collect fuel turns s).2.length ≤ separatorCount s + 1 := by
  induction turns generalizing s with
  | zero => simp [collect]
  | succ turns ih =>
      by_cases hne : s.tokens = []
      · simp [collect_end _ _ hne]
      · have hagrees := Nesting.topLevel_agrees hfuel
        rcases hr : topLevel fuel s with ⟨e | node, t⟩ <;> obtain ⟨hrest, -⟩ := hagrees.run hr
        · rw [collect_error turns hne hr, List.length_cons]
          by_cases hnext : t.skipStatement.skipSeparators.tokens = []
          · simp [collect_end _ _ hnext]
          · have hskip := t.skip_rest.trans hrest
            have hlen := hskip.length_le
            have hlater := ih (s := t.skipStatement.skipSeparators) (by omega)
            have hdropped := separatorCount_skip hnext
            have hle := separatorCount_le hrest
            omega
        · rw [collect_ok turns hne hr]
          have hskip := t.skipSeparators_rest.trans hrest
          have hlen := hskip.length_le
          exact (ih (by omega)).trans (Nat.succ_le_succ (separatorCount_le hskip))

end Parser

/-! ## Fragments -/

theorem Stream.ofSource_solid (source : String) : (ofSource source).Solid :=
  fun t ht => (Token.scanFrom_tiles 0 source.toList).nonempty t (List.mem_of_mem_filter ht)

/-- Unknown characters come in the order of the source. -/
theorem Token.lexErrors_sorted (source : String) :
    (lexErrors source).Pairwise fun e e' => e.span.start < e'.span.start := by
  have hspan {t : Token} {e : LexError} (h : LexError.ofToken? t = some e) : e.span = t.span := by
    unfold LexError.ofToken? at h
    split at h
    · rw [← Option.some.inj h]
    · cases h
  have hnonempty := (scanFrom_tiles 0 source.toList).nonempty
  have hlaid := (scanFrom_laid 0 source.toList).pairwise
  have hsorted := (List.pairwise_append.mp hlaid).1
  refine List.pairwise_filterMap.mpr (hsorted.imp_of_mem fun ht _ hle e he e' he' => ?_)
  rw [hspan he, hspan he']
  exact Nat.lt_of_lt_of_le (hnonempty _ ht) hle

/-- Reading a fragment ends. It takes turns, each of which takes tokens and leaves the last ones.
    Its errors come in the order of the source, and there is at most one more than there are
    separators; but if there are unknown characters then just these are the errors. -/
theorem recovery_makes_progress (source : String) :
    Nesting.Settles (Nesting.parse · source) (Fragment.parse source) ∧
    (∀ s, Nesting.Visits source s → s.RestOf (Stream.ofSource source) ∧ (s.tokens ≠ [] →
      ∃ result t, Nesting.Settles (Nesting.turn · s) (result, t) ∧ t.RestOf s ∧
        t.tokens.length < s.tokens.length)) ∧
    (Token.lexErrors source = [] → ∀ errors, Fragment.parse source = .error errors →
      errors.Pairwise (fun e e' => e.span.start < e'.span.start) ∧
      errors.length ≤ (Token.tokenize source).countP (·.kind.isSeparator) + 1) ∧
    (Token.lexErrors source ≠ [] →
      Fragment.parse source = .error ((Token.lexErrors source).map .ofLexError) ∧
      (Token.lexErrors source).Pairwise fun e e' => e.span.start < e'.span.start) := by
  refine ⟨Nesting.parse_ends source, fun s hs => ?_, fun hlex errors h => ?_, fun hlex => ?_⟩
  · obtain ⟨⟨s, rfl⟩, hrest⟩ := hs.rest
    refine ⟨hrest, fun hne => ?_⟩
    obtain ⟨result, t, hturn, hprogress⟩ := Nesting.turn_progress hne
    exact ⟨result, _, hturn, hprogress⟩
  · obtain ⟨-, rfl⟩ := Fragment.parse_error_iff.mp h
    have hskip := (Stream.ofSource source).skipSeparators_rest
    have hfuel := Nat.lt_succ_of_le hskip.length_le
    have hcount : Parser.separatorCount (Stream.ofSource source) ≤
        (Token.tokenize source).countP (·.kind.isSeparator) :=
      (List.filter_sublist.trans (List.sublist_append_left _ _)).countP_le
    rw [Fragment.errors, if_pos hlex]
    constructor
    · exact (Parser.collect_sorted _ (Stream.ofSource_laid source).skipSeparators
        ((Stream.ofSource_solid source).rest hskip) hfuel).2
    · have hle := Parser.separatorCount_le hskip
      exact (Parser.collect_count _ hfuel).trans (by omega)
  · have herrors : Fragment.errors source = (Token.lexErrors source).map .ofLexError := if_neg hlex
    refine ⟨Fragment.parse_error_iff.mpr ⟨?_, herrors⟩, Token.lexErrors_sorted source⟩
    rw [herrors]
    simpa using hlex

/-- Four errors between three separators: nothing to read, two expressions, an empty body and a
    number that is too large. Then two unknown characters, of which the first does not hide the
    second. -/
theorem errors_between_separators :
    let source := "(; 1 2\ndef f() \x7b \x7d\n99999999999999999999"
    (∃ errors, Fragment.parse source = .error errors ∧ errors.length = 4 ∧
      errors.Pairwise (fun e e' => e.span.start < e'.span.start) ∧
      errors.length ≤ (Token.tokenize source).countP (·.kind.isSeparator) + 1) ∧
    (Token.tokenize source).countP (·.kind.isSeparator) = 3 ∧
    (∃ result t, Nesting.Settles (Nesting.turn · (Stream.ofSource source).skipSeparators)
        (result, t) ∧ t.tokens.length < (Stream.ofSource source).skipSeparators.tokens.length) ∧
    (Token.lexErrors "1 $\né 2").length = 2 ∧
    Fragment.parse "1 $\né 2" = .error ((Token.lexErrors "1 $\né 2").map .ofLexError) := by
  intro source
  have hclaim := recovery_makes_progress source
  refine ⟨?_, by decide +kernel, ?_, by decide +kernel, ?_⟩
  · have hcount : (Fragment.errors source).length = 4 := by decide +kernel
    have hne := List.ne_nil_of_length_eq_add_one hcount
    have hparse := Fragment.parse_error_iff.mpr ⟨hne, rfl⟩
    exact ⟨_, hparse, hcount, hclaim.2.2.1 (by decide +kernel) _ hparse⟩
  · obtain ⟨-, hturn⟩ := hclaim.2.1 _ .start
    obtain ⟨result, t, hturn, -, hlt⟩ := hturn (by decide +kernel)
    exact ⟨result, t, hturn, hlt⟩
  · exact ((recovery_makes_progress "1 $\né 2").2.2.2 (by decide +kernel)).1

end ScalarLang
