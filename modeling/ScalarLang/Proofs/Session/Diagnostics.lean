import Mathlib
import ScalarLang.Proofs.Lower.Checking
import ScalarLang.Proofs.Parse.Blame
import ScalarLang.Proofs.Parse.Joining
import ScalarLang.Proofs.Token.Lossless
import ScalarLang.Session

/-
  Errors can be shown.
  Tokens start and end between characters, and so do the hulls of their spans. All errors of a
  command, from scanning to lowering, are at such spans, so that they have a line and a column, and
  the text that is shown for them exists.
-/

namespace ScalarLang

/-! ## Places in a source -/

theorem Location.ofOffset?_isSome {source : String} {pos : Nat}
    (h : String.Pos.Raw.IsValid source ⟨pos⟩) : (ofOffset? source pos).isSome = true := by
  obtain ⟨before, rest, rfl, rfl⟩ := isValid_iff.mp h
  rw [ofOffset?_append]
  rfl

namespace Span

/-- The span is a part of the source: its ends are in order and stand between characters. -/
def PartOf (source : String) (s : Span) : Prop := s.OnBoundaries source ∧ s.start ≤ s.stop

theorem partOf_hullClosed (source : String) : HullClosed (PartOf source) := by
  rintro a b ⟨ha, ha'⟩ ⟨hb, hb'⟩
  refine ⟨⟨?_, ?_⟩, ?_⟩
  · show String.Pos.Raw.IsValid source ⟨min a.start b.start⟩
    rcases Nat.le_total a.start b.start with h | h
    · rw [Nat.min_eq_left h]
      exact ha.1
    · rw [Nat.min_eq_right h]
      exact hb.1
  · show String.Pos.Raw.IsValid source ⟨max a.stop b.stop⟩
    rcases Nat.le_total a.stop b.stop with h | h
    · rw [Nat.max_eq_right h]
      exact hb.2
    · rw [Nat.max_eq_left h]
      exact ha.2
  · show min a.start b.start ≤ max a.stop b.stop
    omega

/-- The span is in the source, and both ends have a line and a column there. -/
structure Located (source : String) (s : Span) : Prop where
  boundaries : s.OnBoundaries source
  ordered : s.start ≤ s.stop
  inside : s.stop ≤ source.utf8ByteSize
  start : (Location.ofOffset? source s.start).isSome = true
  stop : (Location.ofOffset? source s.stop).isSome = true

theorem PartOf.located {source : String} {s : Span} (h : s.PartOf source) : s.Located source :=
  ⟨h.1, h.2, h.1.2.le_rawEndPos, Location.ofOffset?_isSome h.1.1, Location.ofOffset?_isSome h.1.2⟩

end Span

/-! ## Reading -/

/-- A mark that all tokens of a source have, its end marker too, and that hulls keep. -/
structure Span.IsMark (source : String) (P : Span → Prop) : Prop where
  hull : HullClosed P
  tokens : ∀ t ∈ Token.scan source, P t.span
  eof : P (Token.eof (byteLength source.toList)).span

theorem Token.partOf_of_mem_scan {source : String} {t : Token} (h : t ∈ scan source) :
    t.span.PartOf source := by
  have htiles := scanFrom_tiles 0 source.toList
  have hplaced := htiles.placed [] rfl t h
  rw [List.nil_append, String.ofList_toList] at hplaced
  exact ⟨hplaced.boundaries, (htiles.nonempty t h).le⟩

theorem Span.partOf_isMark (source : String) : IsMark source (PartOf source) where
  hull := partOf_hullClosed source
  tokens := fun _ ht => Token.partOf_of_mem_scan ht
  eof := by
    have hvalid := isValid_byteLength source.toList []
    rw [List.append_nil, String.ofList_toList] at hvalid
    exact ⟨⟨hvalid, hvalid⟩, Nat.le_refl _⟩

section

variable {source : String} {P : Span → Prop} (hP : Span.IsMark source P)
include hP

theorem Stream.ofSource_marked : (ofSource source).Marked P (byteLength source.toList) 0 :=
  ⟨ofSource_laid source, fun t ht => hP.tokens t (List.mem_of_mem_filter ht), hP.eof⟩

theorem Token.mark_of_mem_lexErrors {e : LexError} (h : e ∈ lexErrors source) : P e.span := by
  obtain ⟨t, ht, he⟩ := List.mem_filterMap.mp h
  unfold LexError.ofToken? at he
  split at he
  · obtain rfl := Option.some.inj he
    exact hP.tokens t ht
  · cases he

/-- The complaints about unknown characters. -/
theorem ParseError.mark_of_mem_ofLexError {e : ParseError}
    (h : e ∈ (Token.lexErrors source).map ofLexError) : P e.span := by
  obtain ⟨e', he', rfl⟩ := List.mem_map.mp h
  exact Token.mark_of_mem_lexErrors hP he'

theorem Fragment.mark_of_mem_errors : ∀ e ∈ errors source, P e.span := by
  unfold errors
  split
  · exact (Parser.collect_marked hP.hull _ _ (Stream.ofSource_marked hP).skipSeparators).2
  · exact fun e he => ParseError.mark_of_mem_ofLexError hP he

theorem Fragment.marked_of_parse {f : Fragment} (h : parse source = .ok f) :
    ∀ node ∈ f.nodes, node.Marked P := by
  obtain ⟨-, rfl⟩ := parse_ok_iff.mp h
  exact (Parser.collect_marked hP.hull _ _ (Stream.ofSource_marked hP).skipSeparators).1

theorem Node.mark_of_parse {errors : List ParseError} (h : parse source = .error errors) :
    errors ≠ [] ∧ ∀ e ∈ errors, P e.span := by
  unfold parse at h
  split at h
  · dsimp only at h
    split at h
    · cases h
    · rename_i e s' hwhole
      obtain rfl := Except.error.inj h
      have hpoints : Parser.Blames P (byteLength source.toList) 0 (do
          let node ← Parser.expression ((Stream.ofSource source).tokens.length + 1) 0
          Parser.skipSeparators
          let _ ← Parser.expect .eof
          return node) (Stream.ofSource source) fun _ _ => True :=
        (Parser.expression_points hP.hull _ 0 0 _ (Stream.ofSource_marked hP)).bind
          fun hi node s₁ _ hs₁ _ => .skipSeparators <|
            (Parser.expect_points _ _ _ hs₁.skipSeparators).bind fun hi₂ _ s₂ _ hs₂ _ =>
              .pure hs₂ trivial
      obtain ⟨hi, -, -, he, -⟩ := hpoints.error hwhole
      exact ⟨List.cons_ne_nil _ _, List.forall_mem_singleton.mpr he⟩
  · rename_i errors' hne
    obtain rfl := Except.error.inj h
    refine ⟨by simpa using hne, fun e he => ParseError.mark_of_mem_ofLexError hP he⟩

end

theorem Fragment.partOf_of_mem_errors {source : String} :
    ∀ e ∈ errors source, e.span.PartOf source :=
  mark_of_mem_errors (Span.partOf_isMark source)

theorem Node.partOf_of_parse {source : String} {errors : List ParseError}
    (h : parse source = .error errors) : errors ≠ [] ∧ ∀ e ∈ errors, e.span.PartOf source :=
  mark_of_parse (Span.partOf_isMark source) h

/-! ## Lowering -/

namespace Lower

variable {α : Type} {P : Span → Prop} {p : Program}

/-- The step gives something, or fails at a span with the mark. -/
abbrev Marks (P : Span → Prop) (x : Lower α) : Prop := Decides x (fun _ => True) fun e => P e.span

theorem conditional_marks {form : ConditionalForm} {testSpan thenSpan : Span}
    {test thenArm elseArm : Lower TypedValue} (hspan : P thenSpan) (ht : Marks P test)
    (ha : Marks P thenArm) (he : Marks P elseArm) :
    Marks P (conditional form testSpan thenSpan test thenArm elseArm) := by
  refine .built fun _ => .built fun _ => .built fun _ => .built fun _ => .built fun _ =>
    .built fun _ => ht.bind (fun t _ => ?_) fun _ h => h
  refine (parkTest_succeeds form t).step fun parked _ => (boolify_succeeds t).step fun _ _ =>
    .built fun _ => .built fun _ =>
      (closedArm_decides ha parked _).bind (fun a _ => ?_) fun _ h => h
  refine .built fun _ => (closedArm_decides he parked _).bind (fun b _ => ?_) fun _ h => h
  dsimp only
  split
  · exact (meetingSlot_succeeds _ _ _ _ _ _).step fun _ _ => .built fun _ => .built fun _ =>
      .pure trivial
  · exact .fail hspan

theorem call_marks {span : Span} {callee : Ident} {count : Nat} {args : Lower (List Ir.ValueId)}
    (hspan : P span) (hcallee : P callee.span) (hargs : Marks P args) :
    Marks P (call p span callee count args) := by
  unfold call
  split
  · exact .fail hcallee
  · split
    · refine hargs.bind (fun _ _ => .built fun _ => .built fun _ => .built fun _ => ?_) fun _ h => h
      split
      · exact .fail hspan
      · exact (Decides.useType _).step fun _ _ => .pure trivial
    · exact .fail hspan

mutual

theorem expression_marks : ∀ node : Node, node.Marked P → Marks P (expression p node)
  | .literal _ _, _ => by
      rw [expression]
      exact .built fun _ => (Decides.useType _).step fun _ _ => .pure trivial
  | .name _ _, h => by
      rw [expression]
      exact .fail h
  | .binary _ op lhs rhs, ⟨hspan, hl, hr⟩ => by
      rw [expression]
      refine (expression_marks lhs hl).bind (fun x _ => (expression_marks rhs hr).bind
        (fun y _ => (binary_decides op x y).mono (fun _ _ => trivial) ?_) fun _ h => h) fun _ h => h
      rintro e ⟨-, rfl, -⟩
      exact hspan
  | .negate _ operand, ⟨hspan, h⟩ => by
      rw [expression]
      refine (expression_marks operand h).bind
        (fun x _ => (negate_decides x).mono (fun _ _ => trivial) ?_) fun _ h => h
      rintro e ⟨-, rfl, -⟩
      exact hspan
  | .conditional _ form test thenArm elseArm, ⟨_, ht, ha, he⟩ => by
      rw [expression]
      exact conditional_marks ha.span (expression_marks test ht) (expression_marks thenArm ha)
        (expression_marks elseArm he)
  | .function _ _ _ _, ⟨_, hident, _⟩ => by
      rw [expression]
      exact .fail hident
  | .call _ _ args, ⟨hspan, hcallee, hargs⟩ => by
      rw [expression]
      exact call_marks hspan hcallee (arguments_marks args hargs)

theorem arguments_marks : ∀ nodes : List Node, Node.AllMarked P nodes → Marks P (arguments p nodes)
  | [], _ => by
      rw [arguments]
      exact .pure trivial
  | node :: rest, ⟨hnode, hrest⟩ => by
      rw [arguments]
      exact (expression_marks node hnode).bind (fun _ _ => (arguments_marks rest hrest).bind
        (fun _ _ => .pure trivial) fun _ h => h) fun _ h => h

end

theorem statements_marks : ∀ nodes : List Node, (∀ n ∈ nodes, n.Marked P) →
    Marks P (statements p nodes)
  | [], _ => .built fun _ => .pure trivial
  | [node], h => expression_marks node (h node List.mem_cons_self)
  | node :: next :: rest, h =>
      (expression_marks node (h node List.mem_cons_self)).bind
        (fun _ _ => statements_marks (next :: rest) fun n hn => h n (List.mem_cons_of_mem _ hn))
        fun _ h => h

end Lower

variable {P : Span → Prop}

theorem Routine.lower_marks {p : Program} {types : TypeTable} {name : String} {anonymous : Bool}
    {nodes : List Node} {e : LowerError} (hnodes : ∀ n ∈ nodes, n.Marked P)
    (h : (lower p types name anonymous nodes).1 = .error e) : P e.span := by
  have hdraft : Lower.Outcome (fun _ => True) (fun e => P e.span)
      (lower p types name anonymous nodes).1 :=
    Lower.lower_decides (fun _ => True) (Lower.statements_marks nodes hnodes) types name anonymous
  rwa [h] at hdraft

/-- The spans of the definition have the mark. -/
def Definition.Marked (P : Span → Prop) (d : Definition) : Prop :=
  P d.name.span ∧ (∀ param ∈ d.params, P param.span) ∧ ∀ n ∈ d.body, n.Marked P

theorem Fragment.definitions_marked {f : Fragment} (h : ∀ n ∈ f.nodes, n.Marked P) :
    ∀ d ∈ f.definitions, d.Marked P := by
  intro d hd
  obtain ⟨node, hnode, hdef⟩ := List.mem_filterMap.mp hd
  have hmarked := h node hnode
  cases node <;> cases hdef
  obtain ⟨-, hident, hparams, hbody⟩ := hmarked
  exact ⟨hident, hparams, Node.allMarked_iff.mp hbody⟩

theorem Routine.ofDefinition_marks {p : Program} {types : TypeTable} {d : Definition}
    {e : LowerError} (hd : d.Marked P) (h : (ofDefinition p types d).1 = .error e) : P e.span := by
  obtain ⟨hident, hparams, hbody⟩ := hd
  unfold ofDefinition at h
  split at h
  · obtain rfl := Except.error.inj h
    exact hident
  · split at h
    · rename_i param rest heq
      obtain rfl := Except.error.inj h
      exact hparams param (by rw [heq]; exact List.mem_cons_self)
    · exact lower_marks hbody h

namespace Session

theorem define_marks {ds : List Definition} (hds : ∀ d ∈ ds, d.Marked P) {s : Session}
    {e : LowerError} (h : (s.define ds).1 = .error e) : P e.span := by
  induction ds generalizing s with
  | nil => cases h
  | cons d ds ih =>
      rw [define] at h
      split at h
      · exact ih (fun d' hd' => hds d' (List.mem_cons_of_mem _ hd')) h
      · rename_i e' types hdef
        obtain rfl := Except.error.inj h
        exact Routine.ofDefinition_marks (hds d List.mem_cons_self) (congrArg Prod.fst hdef)

theorem addEntry_marks {nodes : List Node} (hnodes : ∀ n ∈ nodes, n.Marked P) {s : Session}
    {e : LowerError} (h : (s.addEntry nodes).1 = .error e) : P e.span := by
  unfold addEntry at h
  dsimp only at h
  split at h
  · cases h
  · rename_i e' types hlower
    obtain rfl := Except.error.inj h
    exact Routine.lower_marks hnodes (congrArg Prod.fst hlower)

theorem lowerFragment_marks {f : Fragment} (hf : ∀ n ∈ f.nodes, n.Marked P) {s : Session}
    {e : LowerError} (h : (s.lowerFragment f).1 = .error e) : P e.span := by
  unfold lowerFragment at h
  dsimp only at h
  split at h
  · rename_i e' s' hdefine
    obtain rfl := Except.error.inj h
    exact define_marks (Fragment.definitions_marked hf) (congrArg Prod.fst hdefine)
  · split at h
    · cases h
    · split at h
      · cases h
      · rename_i e' s'' hentry
        obtain rfl := Except.error.inj h
        have hstatements : ∀ n ∈ f.statements, n.Marked P :=
          fun n hn => hf n (List.mem_of_mem_filter hn)
        exact addEntry_marks hstatements (congrArg Prod.fst hentry)

end Session

/-! ## Showing -/

namespace Diagnostic

/-- All places that the error complains about. -/
def spans : Diagnostic → List Span
  | malformed errors => errors.map (·.span)
  | lowering e => [e.span]
  | engine _ => []

/-- All places of the error are in the source, and there is a text to show. -/
structure Shown (source : String) (d : Diagnostic) : Prop where
  located : ∀ span ∈ d.spans, span.Located source
  rendered : (d.render? source).isSome = true

theorem span?_mem_spans {d : Diagnostic} {span : Span} (h : d.span? = some span) :
    span ∈ d.spans := by
  cases d with
  | malformed errors =>
      obtain ⟨e, he, rfl⟩ := Option.map_eq_some_iff.mp h
      exact List.mem_map_of_mem (List.mem_of_mem_head? he)
  | lowering e =>
      obtain rfl := Option.some.inj h
      exact List.mem_cons_self
  | engine e => cases h

/-- The text needs the first place only. -/
theorem shown_of_partOf {source : String} {d : Diagnostic}
    (h : ∀ span ∈ d.spans, span.PartOf source) : d.Shown source := by
  refine ⟨fun span hspan => (h span hspan).located, ?_⟩
  rw [render?, Option.isSome_map, heading?]
  cases hspan : d.span? with
  | none => rfl
  | some span =>
      have hplace := (h span (span?_mem_spans hspan)).located.start
      obtain ⟨location, hlocation⟩ := Option.isSome_iff_exists.mp hplace
      simp [hlocation]

end Diagnostic

/-- What stops a session that is given a source has the marks of the source. -/
theorem Session.compile_marks {s : Session} {source : String} (hP : Span.IsMark source P)
    {d : Diagnostic} (h : (s.compile source).1 = .error d) :
    d.spans ≠ [] ∧ ∀ span ∈ d.spans, P span := by
  unfold compile at h
  split at h
  · rename_i errors hparse
    obtain rfl := Except.error.inj h
    obtain ⟨hne, rfl⟩ := Fragment.parse_error_iff.mp hparse
    refine ⟨by simpa [Diagnostic.spans] using hne, fun span hspan => ?_⟩
    obtain ⟨e, he, rfl⟩ := List.mem_map.mp hspan
    exact Fragment.mark_of_mem_errors hP e he
  · rename_i f hparse
    split at h
    · cases h
    · rename_i e s' hlower
      obtain rfl := Except.error.inj h
      refine ⟨List.cons_ne_nil _ _, List.forall_mem_singleton.mpr ?_⟩
      exact lowerFragment_marks (Fragment.marked_of_parse hP hparse) (congrArg Prod.fst hlower)

theorem Session.compile_shown {s : Session} {source : String} {d : Diagnostic}
    (h : (s.compile source).1 = .error d) : d.spans ≠ [] ∧ d.Shown source :=
  (compile_marks (Span.partOf_isMark source) h).imp_right Diagnostic.shown_of_partOf

theorem Session.eval_shown {s : Session} {engine : Engine} {source : String} {d : Diagnostic}
    (h : (s.eval engine source).1 = .error d) : d.Shown source := by
  unfold eval at h
  split at h
  · rename_i d' s' hcompile
    obtain rfl := Except.error.inj h
    exact (compile_shown (congrArg Prod.fst hcompile)).2
  · cases h
  · split at h
    · cases h
    · obtain rfl := Except.error.inj h
      exact Diagnostic.shown_of_partOf (by simp [Diagnostic.spans])

/-- Each error that reading the source gives, as a fragment or as an expression, can be shown by
    itself, and so can whatever stops a session that is given the source. -/
theorem errors_can_be_shown (s : Session) (engine : Engine) (source : String) :
    (∀ errors, Fragment.parse source = .error errors →
      errors ≠ [] ∧ ∀ e ∈ errors, (Diagnostic.malformed [e]).Shown source) ∧
    (∀ errors, Node.parse source = .error errors →
      errors ≠ [] ∧ ∀ e ∈ errors, (Diagnostic.malformed [e]).Shown source) ∧
    (∀ d, (s.compile source).1 = .error d → d.spans ≠ [] ∧ d.Shown source) ∧
    ∀ d, (s.eval engine source).1 = .error d → d.Shown source := by
  have hshown {e : ParseError} (h : e.span.PartOf source) :
      (Diagnostic.malformed [e]).Shown source :=
    Diagnostic.shown_of_partOf (List.forall_mem_singleton.mpr h)
  refine ⟨fun errors h => ?_, fun errors h => ?_, fun d h => Session.compile_shown h,
    fun d h => Session.eval_shown h⟩
  · obtain ⟨hne, rfl⟩ := Fragment.parse_error_iff.mp h
    exact ⟨hne, fun e he => hshown (Fragment.partOf_of_mem_errors e he)⟩
  · obtain ⟨hne, hparts⟩ := Node.partOf_of_parse h
    exact ⟨hne, fun e he => hshown (hparts e he)⟩

theorem exists_error_of_mapError {ε α β : Type} {x : Except ε α} {f : ε → β} {b : β}
    (h : x.mapError f = .error b) : ∃ e, x = .error e ∧ f e = b := by
  cases x with
  | error e => exact ⟨e, rfl, Except.error.inj h⟩
  | ok a => cases h

/-- Two errors of reading, one of lowering and one of running, in sources with wide characters. -/
theorem errors_shown_beside_wide_characters :
    (∃ errors, Fragment.parse "def f() \x7b \x7d // é\n2 +" = .error errors ∧ errors.length = 2 ∧
      ∀ e ∈ errors, (Diagnostic.malformed [e]).Shown "def f() \x7b \x7d // é\n2 +") ∧
    (∃ errors, Node.parse "1 €" = .error errors ∧ errors ≠ [] ∧
      ∀ e ∈ errors, (Diagnostic.malformed [e]).Shown "1 €") ∧
    (∃ d, ((Session.new .empty).compile "// é\nx").1 = .error d ∧ d.spans = [⟨6, 7⟩] ∧
      d.Shown "// é\nx") ∧
    ∃ d, ((Session.new .empty).eval Engine.new "1 / 0 // é").1 = .error d ∧
      d.Shown "1 / 0 // é" := by
  refine ⟨?_, ?_, ?_, ?_⟩
  · have hcount : (Fragment.errors "def f() \x7b \x7d // é\n2 +").length = 2 := by
      decide +kernel
    have hne := List.ne_nil_of_length_eq_add_one hcount
    have hparse := Fragment.parse_error_iff.mpr ⟨hne, rfl⟩
    exact ⟨_, hparse, hcount, ((errors_can_be_shown (.new .empty) .new _).1 _ hparse).2⟩
  · have hfails : (Node.parse "1 €").isOk = false := by decide +kernel
    rcases hparse : Node.parse "1 €" with errors | node
    · exact ⟨errors, rfl, (errors_can_be_shown (.new .empty) .new _).2.1 errors hparse⟩
    · rw [hparse] at hfails
      cases hfails
  · have hspans : ((Session.new .empty).compile "// é\nx").1.mapError (·.spans) =
        .error [⟨6, 7⟩] := by decide +kernel
    obtain ⟨d, hd, hspans⟩ := exists_error_of_mapError hspans
    exact ⟨d, hd, hspans, ((errors_can_be_shown (.new .empty) .new _).2.2.1 d hd).2⟩
  · have hspans : ((Session.new .empty).eval Engine.new "1 / 0 // é").1.mapError (·.spans) =
        .error [] := by decide +kernel
    obtain ⟨d, hd, -⟩ := exists_error_of_mapError hspans
    exact ⟨d, hd, (errors_can_be_shown (.new .empty) .new _).2.2.2 d hd⟩

end ScalarLang
