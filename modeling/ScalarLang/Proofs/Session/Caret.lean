import Mathlib
import ScalarLang.Proofs.Session.Diagnostics
import ScalarLang.Proofs.Token.LongestMatch

/-
  Where the caret stands.
  The text for an error quotes the line in which the error starts, without the carriage returns at
  its end, and has a caret in the column of the start. No token starts with a return, so the caret
  is under the character where the error starts. An error at the end of a line has the caret right
  behind the line, unless returns were left out there: they still count for the column.
-/

namespace ScalarLang

/-! ## Places on lines -/

/-- Where an offset stands: on the line made of `left` and `right`, between the two. -/
structure Place (source : String) (offset : Nat) where
  front : List Char
  left : List Char
  right : List Char
  rest : List Char
  source_eq : source.toList = front ++ (left ++ (right ++ rest))
  offset_eq : byteLength (front ++ left) = offset
  front_lines : WholeLines front
  newline_not_mem : '\n' ∉ left ++ right
  rest_head : ∀ c ∈ rest.head?, c = '\n'

namespace Place

variable {source : String} {offset : Nat} (place : Place source offset)

def column : Nat := place.left.length + 1

theorem ofOffset?_eq : Location.ofOffset? source offset =
    some ⟨place.front.count '\n' + 1, place.column⟩ := by
  have hleft : '\n' ∉ place.left := fun h => place.newline_not_mem (List.mem_append_left _ h)
  have hlocated := Location.ofOffset?_lines place.front_lines hleft (place.right ++ place.rest)
  rwa [place.offset_eq, List.append_assoc, ← place.source_eq, String.ofList_toList] at hlocated

theorem lineText_eq : lineText source (place.front.count '\n' + 1) =
    String.ofList (dropReturns (place.left ++ place.right)) := by
  have hquoted := lineText_lines place.front_lines place.newline_not_mem place.rest_head
  rwa [List.append_assoc place.left, ← place.source_eq, String.ofList_toList] at hquoted

end Place

/-- The span starts between characters, and not before a carriage return. -/
def Span.StartsAtText (source : String) (s : Span) : Prop :=
  ∃ before after, source.toList = before ++ after ∧ byteLength before = s.start ∧
    after.head? ≠ some '\r'

theorem Span.startsAtText_isMark (source : String) : IsMark source (StartsAtText source) where
  hull a b ha hb := by
    unfold StartsAtText
    show ∃ before after, _ ∧ byteLength before = min a.start b.start ∧ _
    rcases Nat.le_total a.start b.start with h | h
    · rwa [Nat.min_eq_left h]
    · rwa [Nat.min_eq_right h]
  tokens t ht := by
    obtain ⟨before, c, rest, hsource, hc, hstart, -⟩ := Token.scanFrom_origin 0 _ t ht
    refine ⟨before, c :: rest, hsource, by rw [hstart, Nat.zero_add], ?_⟩
    rintro ⟨⟩
    cases hc
  eof := ⟨source.toList, [], (List.append_nil _).symm, rfl, nofun⟩

theorem Span.StartsAtText.exists_place {source : String} {s : Span} (h : s.StartsAtText source) :
    ∃ place : Place source s.start, place.right.head? ≠ some '\r' := by
  obtain ⟨before, after, hsource, hstart, hhead⟩ := h
  obtain ⟨front, left, rfl, hfront, hleft⟩ := exists_wholeLines_append before
  obtain ⟨right, rest, rfl, hright, hrest⟩ := exists_line_append after
  refine ⟨⟨front, left, right, rest, ?_, hstart, hfront, ?_, hrest⟩, ?_⟩
  · rw [hsource, List.append_assoc]
  · exact fun hmem => (List.mem_append.mp hmem).elim hleft hright
  · show right.head? ≠ _
    cases right with
    | nil => nofun
    | cons c right => exact hhead

/-! ## Returns -/

theorem dropReturns_concat_return (cs : List Char) :
    dropReturns (cs ++ ['\r']) = dropReturns cs := by
  rw [dropReturns, List.reverse_concat, List.dropWhile_cons_of_pos (by rfl), dropReturns]

theorem dropReturns_concat {c : Char} (hc : c ≠ '\r') (cs : List Char) :
    dropReturns (cs ++ [c]) = cs ++ [c] := by
  rw [dropReturns, List.reverse_concat, List.dropWhile_cons_of_neg (by simpa using hc),
    List.reverse_cons, List.reverse_reverse]

/-- The line without its returns, and the returns. -/
theorem dropReturns_spec (cs : List Char) :
    (∃ count, cs = dropReturns cs ++ List.replicate count '\r') ∧
      (dropReturns cs).getLast? ≠ some '\r' := by
  induction cs using List.reverseRecOn with
  | nil => exact ⟨⟨0, rfl⟩, nofun⟩
  | append_singleton cs c ih =>
      by_cases hc : c = '\r'
      · obtain ⟨⟨count, hcount⟩, hlast⟩ := ih
        rw [hc, dropReturns_concat_return]
        refine ⟨⟨count + 1, ?_⟩, hlast⟩
        rw [List.replicate_succ', ← List.append_assoc, ← hcount]
      · rw [dropReturns_concat hc, List.getLast?_concat]
        exact ⟨⟨0, (List.append_nil _).symm⟩, fun h => hc (Option.some.inj h)⟩

theorem length_le_dropReturns (cs : List Char) :
    cs.length ≤ (dropReturns cs).length ↔ cs.getLast? ≠ some '\r' := by
  obtain ⟨⟨count, hcount⟩, hlast⟩ := dropReturns_spec cs
  have hlength := congrArg List.length hcount
  rw [List.length_append, List.length_replicate] at hlength
  cases count with
  | zero =>
      rw [List.replicate_zero, List.append_nil] at hcount
      rw [← hcount] at hlast ⊢
      exact iff_of_true (Nat.le_refl _) hlast
  | succ count =>
      have hreturn : cs.getLast? = some '\r' := by
        rw [hcount, List.replicate_succ', ← List.append_assoc, List.getLast?_concat]
      exact iff_of_false (by omega) (not_not.mpr hreturn)

/-- A line keeps what comes before a character that is no return. -/
theorem dropReturns_append (left right : List Char) {c : Char} (hc : c ≠ '\r') :
    ∃ more, dropReturns (left ++ c :: right) = left ++ c :: more := by
  induction right using List.reverseRecOn with
  | nil => exact ⟨[], dropReturns_concat hc left⟩
  | append_singleton right d ih =>
      rw [← List.cons_append, ← List.append_assoc]
      by_cases hd : d = '\r'
      · rw [hd, dropReturns_concat_return]
        exact ih
      · rw [dropReturns_concat hd, List.append_assoc]
        exact ⟨right ++ [d], rfl⟩

/-- A column of a line, seen from the line without its returns. -/
theorem dropReturns_column {left right : List Char} (hright : right.head? ≠ some '\r') :
    (left.length + 1 ≤ (dropReturns (left ++ right)).length ↔ right ≠ []) ∧
      (left.length + 1 ≤ (dropReturns (left ++ right)).length + 1 ↔
        (right = [] → left.getLast? ≠ some '\r')) ∧
      (right ≠ [] → (dropReturns (left ++ right))[left.length]? = right.head?) := by
  cases right with
  | nil =>
      obtain ⟨⟨count, hcount⟩, -⟩ := dropReturns_spec left
      have hlength := congrArg List.length hcount
      rw [List.length_append, List.length_replicate] at hlength
      rw [List.append_nil]
      refine ⟨iff_of_false (by omega) (fun h => h rfl), ?_, fun h => absurd rfl h⟩
      rw [Nat.add_le_add_iff_right, length_le_dropReturns]
      exact ⟨fun h _ => h, fun h => h rfl⟩
  | cons c right =>
      have hc : c ≠ '\r' := fun h => hright (congrArg some h)
      obtain ⟨more, hmore⟩ := dropReturns_append left right hc
      have hlength : (dropReturns (left ++ c :: right)).length = left.length + more.length + 1 := by
        rw [hmore, List.length_append, List.length_cons, Nat.add_assoc]
      refine ⟨iff_of_true (by omega) (List.cons_ne_nil _ _), iff_of_true (by omega) nofun, ?_⟩
      intro _
      rw [hmore, List.getElem?_append_right (Nat.le_refl _), Nat.sub_self]
      rfl

/-! ## The caret -/

namespace Diagnostic

/-- The text for the error quotes a line and has the caret in a column below it. -/
def Shows (source : String) (d : Diagnostic) (quoted : List Char) (column : Nat) : Prop :=
  ∃ line, d.render? source = some (d.category.label ++ ": (" ++ (Location.mk line column).text ++
    ") " ++ d.message ++ "\n" ++ String.ofList quoted ++ "\n" ++
    String.ofList (List.replicate (column - 1) '-') ++ "^" ++ d.details)

/-- The text quotes the line of the place without the returns at its end, with the caret in the
    column of the place. There the caret has the character of the place above it. At the end of a
    line it is right behind the line, if the line has no returns. -/
structure CaretAt {source : String} {offset : Nat} (place : Place source offset) (d : Diagnostic)
    (quoted : List Char) : Prop where
  shows : d.Shows source quoted place.column
  line : ∃ count, place.left ++ place.right = quoted ++ List.replicate count '\r'
  trimmed : quoted.getLast? ≠ some '\r'
  under : place.column ≤ quoted.length ↔ place.right ≠ []
  near : place.column ≤ quoted.length + 1 ↔ (place.right = [] → place.left.getLast? ≠ some '\r')
  above : place.column ≤ quoted.length →
    quoted[place.column - 1]? = (place.right ++ place.rest).head?

/-- The caret is at the start of the error. -/
def CaretPlaced (source : String) (d : Diagnostic) : Prop :=
  ∃ span, d.span? = some span ∧
    ∃ (place : Place source span.start) (quoted : List Char), d.CaretAt place quoted

theorem caretAt_of_span {source : String} {d : Diagnostic} {span : Span}
    (hspan : d.span? = some span) (place : Place source span.start)
    (hright : place.right.head? ≠ some '\r') :
    d.CaretAt place (dropReturns (place.left ++ place.right)) := by
  obtain ⟨hline, htrimmed⟩ := dropReturns_spec (place.left ++ place.right)
  obtain ⟨hunder, hnear, habove⟩ := dropReturns_column hright
  refine ⟨⟨place.front.count '\n' + 1, ?_⟩, hline, htrimmed, hunder, hnear, fun h => ?_⟩
  · simp only [render?, heading?, hspan, place.ofOffset?_eq, ← place.lineText_eq]
    rfl
  · have hne := hunder.mp h
    rw [List.head?_append_of_ne_nil _ hne]
    exact habove hne

theorem caretPlaced_of_marks {source : String} {d : Diagnostic} (hne : d.spans ≠ [])
    (h : ∀ span ∈ d.spans, span.StartsAtText source) : d.CaretPlaced source := by
  obtain ⟨span, hspan⟩ : ∃ span, d.span? = some span := by
    cases d with
    | malformed errors =>
        cases errors with
        | nil => exact absurd rfl hne
        | cons e errors => exact ⟨e.span, rfl⟩
    | lowering e => exact ⟨e.span, rfl⟩
    | engine e => exact absurd rfl hne
  obtain ⟨place, hright⟩ := (h span (span?_mem_spans hspan)).exists_place
  exact ⟨span, hspan, place, _, caretAt_of_span hspan place hright⟩

end Diagnostic

/-- Whatever goes wrong in reading a source or in lowering it, the caret is at its start. -/
theorem caret_stands_at_error (s : Session) (source : String) :
    (∀ errors, Fragment.parse source = .error errors →
      ∀ e ∈ errors, (Diagnostic.malformed [e]).CaretPlaced source) ∧
    (∀ errors, Node.parse source = .error errors →
      ∀ e ∈ errors, (Diagnostic.malformed [e]).CaretPlaced source) ∧
    ∀ d, (s.compile source).1 = .error d → d.CaretPlaced source := by
  have hmark := Span.startsAtText_isMark source
  have hplaced {e : ParseError} (h : e.span.StartsAtText source) :
      (Diagnostic.malformed [e]).CaretPlaced source :=
    Diagnostic.caretPlaced_of_marks (List.cons_ne_nil _ _) (List.forall_mem_singleton.mpr h)
  refine ⟨fun errors h e he => ?_, fun errors h e he => ?_, fun d h => ?_⟩
  · obtain ⟨-, rfl⟩ := Fragment.parse_error_iff.mp h
    exact hplaced (Fragment.mark_of_mem_errors hmark e he)
  · exact hplaced ((Node.mark_of_parse hmark h).2 e he)
  · obtain ⟨hne, hmarks⟩ := Session.compile_marks hmark h
    exact Diagnostic.caretPlaced_of_marks hne hmarks

/-- Errors on lines that end in returns, two of reading and one of lowering, and one at the end of
    a source. -/
theorem caret_placed_beside_returns :
    (∃ errors, Fragment.parse "def f() \x7b \x7d\r\n2 +\r\n" = .error errors ∧
      errors.length = 2 ∧
      ∀ e ∈ errors, (Diagnostic.malformed [e]).CaretPlaced "def f() \x7b \x7d\r\n2 +\r\n") ∧
    (∃ errors, Node.parse "1 +" = .error errors ∧ errors ≠ [] ∧
      ∀ e ∈ errors, (Diagnostic.malformed [e]).CaretPlaced "1 +") ∧
    ∃ d, ((Session.new .empty).compile "// é\r\n2 * x\r\n").1 = .error d ∧
      d.CaretPlaced "// é\r\n2 * x\r\n" := by
  refine ⟨?_, ?_, ?_⟩
  · have hcount : (Fragment.errors "def f() \x7b \x7d\r\n2 +\r\n").length = 2 := by
      decide +kernel
    have hne := List.ne_nil_of_length_eq_add_one hcount
    have hparse := Fragment.parse_error_iff.mpr ⟨hne, rfl⟩
    exact ⟨_, hparse, hcount, (caret_stands_at_error (.new .empty) _).1 _ hparse⟩
  · have hfails : (Node.parse "1 +").isOk = false := by decide +kernel
    rcases hparse : Node.parse "1 +" with errors | node
    · exact ⟨errors, rfl, (Node.mark_of_parse (Span.startsAtText_isMark _) hparse).1,
        (caret_stands_at_error (.new .empty) _).2.1 errors hparse⟩
    · rw [hparse] at hfails
      cases hfails
  · have hspans : ((Session.new .empty).compile "// é\r\n2 * x\r\n").1.mapError (·.spans) =
        .error [⟨11, 12⟩] := by decide +kernel
    obtain ⟨d, hd, -⟩ := exists_error_of_mapError hspans
    exact ⟨d, hd, (caret_stands_at_error (.new .empty) _).2.2 d hd⟩

/-- The returns at the end of a line are not quoted, but the caret is behind them. -/
theorem caret_behind_returns : ∃ d, ((Session.new .empty).compile "1 +\r\n").1 = .error d ∧
    d.Shows "1 +\r\n" "1 +".toList 5 ∧ ¬ 5 ≤ "1 +".toList.length + 1 := by
  have hrender : ((Session.new .empty).compile "1 +\r\n").1.mapError
      (fun d => (d.category.label, d.message, d.details, d.render? "1 +\r\n")) =
        .error ("SyntaxError", "expected expression", "",
          some "SyntaxError: (line 1, col 5) expected expression\n1 +\n----^") := by
    decide +kernel
  obtain ⟨d, hd, hrender⟩ := exists_error_of_mapError hrender
  obtain ⟨hlabel, hmessage, hdetails, hrender⟩ := by simpa only [Prod.mk.injEq] using hrender
  refine ⟨d, hd, ⟨1, ?_⟩, by decide⟩
  rw [hrender, hlabel, hmessage, hdetails]
  decide +kernel

end ScalarLang
