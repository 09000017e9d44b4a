import Mathlib
import ScalarLang.Proofs.Parse.Spans
import ScalarLang.Proofs.Source.Location
import ScalarLang.Proofs.Token.Layout

/-
  Scanning loses nothing.
  A scan takes a source apart into lexemes and blanks, and `Tiles` says so, step by step. What is
  known of tokens as parts of their source follows by induction over the steps: where a token
  stands there is its lexeme, and where none stands there are blanks. Places are byte offsets, as
  the library of strings has them.
-/

namespace ScalarLang

/-! ## Parts of a source -/

namespace Span

/-- The part of a source that a span covers. -/
def slice (source : String) (s : Span) : String :=
  String.Pos.Raw.extract source ⟨s.start⟩ ⟨s.stop⟩

/-- Both ends stand between characters of the source, or at its ends. -/
def OnBoundaries (source : String) (s : Span) : Prop :=
  String.Pos.Raw.IsValid source ⟨s.start⟩ ∧ String.Pos.Raw.IsValid source ⟨s.stop⟩

/-- The characters of a list that stand between others. -/
theorem slice_between (before mid after : List Char) :
    slice (String.ofList (before ++ mid ++ after))
      ⟨byteLength before, byteLength (before ++ mid)⟩ = String.ofList mid := by
  have h := String.extract_of_valid before mid after
  rwa [← byteLength_eq_utf8Len, ← byteLength_eq_utf8Len, ← byteLength_append] at h

theorem slice_empty (source : String) (pos : Nat) : slice source ⟨pos, pos⟩ = "" := by
  simp [slice, String.Pos.Raw.extract]

theorem isValid_byteLength (before after : List Char) :
    String.Pos.Raw.IsValid (String.ofList (before ++ after)) ⟨byteLength before⟩ := by
  refine String.Pos.Raw.isValid_iff_exists_append.mpr
    ⟨String.ofList before, String.ofList after, String.ofList_append, ?_⟩
  rw [String.rawEndPos_ofList, byteLength_eq_utf8Len]

theorem onBoundaries_between (before mid after : List Char) :
    OnBoundaries (String.ofList (before ++ mid ++ after))
      ⟨byteLength before, byteLength (before ++ mid)⟩ := by
  refine ⟨?_, isValid_byteLength _ _⟩
  rw [List.append_assoc]
  exact isValid_byteLength _ _

end Span

namespace Token

/-- The spans that no token covers, from byte `pos` to the end of a source: before the first token,
    between tokens and after the last one. -/
def gaps (size : Nat) : Nat → List Token → List Span
  | pos, [] => [⟨pos, size⟩]
  | pos, t :: rest => ⟨pos, t.span.start⟩ :: gaps size t.span.stop rest

/-- Where the token stands, its lexeme stands in the source. -/
structure Placed (source : String) (t : Token) : Prop where
  boundaries : t.span.OnBoundaries source
  slice : t.span.slice source = t.lexeme

/-- The error complains about the token: it is about the one character that the token has. -/
structure Reports (t : Token) (e : LexError) : Prop where
  span : e.span = t.span
  char : t.lexeme = String.singleton e.char

/-! ## Steps of a scan -/

/-- The text, which starts at byte `pos`, is made of the lexemes of the tokens, in this order, and
    of blanks. A token of unknown kind has one character. -/
inductive Tiles : Nat → List Char → List Token → Prop
  | done (pos : Nat) : Tiles pos [] []
  | blank {pos : Nat} {c : Char} {cs : List Char} {ts : List Token} (hc : isBlank c = true)
      (h : Tiles (pos + c.utf8Size) cs ts) : Tiles pos (c :: cs) ts
  | token {pos : Nat} {kind : TokenKind} {c : Char} {more cs : List Char} {ts : List Token}
      (hunknown : kind = .unknown → more = [])
      (h : Tiles (pos + byteLength (c :: more)) cs ts) :
      Tiles pos (c :: more ++ cs)
        (⟨kind, ⟨pos, pos + byteLength (c :: more)⟩, String.ofList (c :: more)⟩ :: ts)

/-- A token of unknown kind takes no more characters than its first. -/
def Lone (r : TokenKind × Nat) : Prop := r.1 = .unknown → r.2 = 0

theorem Lone.of_ne {r : TokenKind × Nat} (h : r.1 ≠ .unknown) : Lone r := fun hr => absurd hr h

theorem munchNumber_lone (cs : List Char) : Lone (munchNumber cs) := by
  refine .of_ne ?_
  rcases numberTail_kind (cs.drop (digitRun cs)) with h | h | h <;>
    simp only [munchNumber, h] <;> exact TokenKind.noConfusion

theorem munchWord_lone (c : Char) (cs : List Char) : Lone (munchWord c cs) := by
  refine .of_ne ?_
  unfold munchWord wordKind reserved
  simp only [List.lookup]
  repeat' split
  all_goals exact TokenKind.noConfusion

theorem oneOrTwo_lone {two : TokenKind} (htwo : two ≠ .unknown) (next : Char) (one : TokenKind)
    (cs : List Char) : Lone (oneOrTwo next two one cs) := by
  unfold oneOrTwo
  split
  · split
    · exact .of_ne htwo
    · exact fun _ => rfl
  · exact fun _ => rfl

theorem munchSymbol_lone (c : Char) (cs : List Char) : Lone (munchSymbol c cs) := by
  unfold munchSymbol
  split
  case h_4 => split <;> exact .of_ne TokenKind.noConfusion
  case h_5 | h_6 => exact oneOrTwo_lone TokenKind.noConfusion _ _ _
  case h_7 | h_8 =>
    split
    · exact .of_ne TokenKind.noConfusion
    · exact oneOrTwo_lone TokenKind.noConfusion _ _ _
  all_goals exact fun _ => rfl

theorem munch_lone (c : Char) (cs : List Char) : Lone (munch c cs) := by
  unfold munch
  split
  · exact munchNumber_lone cs
  · split
    · exact munchWord_lone c cs
    · exact munchSymbol_lone c cs

theorem scanFrom_tiles (pos : Nat) (cs : List Char) : Tiles pos cs (scanFrom pos cs) := by
  fun_induction scanFrom pos cs with
  | case1 pos => exact .done pos
  | case2 pos c cs hc ih => exact .blank hc ih
  | case3 pos c cs _ kind more hm lexeme stop ih =>
      have hunknown : kind = .unknown → cs.take more = [] := by
        intro hkind
        have hlone := munch_lone c cs
        rw [hm] at hlone
        rw [show more = 0 from hlone hkind, List.take_zero]
      have hall : c :: cs.take more ++ cs.drop more = c :: cs := by
        rw [List.cons_append, List.take_append_drop]
      rw [← hall]
      exact .token hunknown ih

/-! ## What follows from the steps -/

namespace Tiles

variable {pos : Nat} {cs : List Char} {ts : List Token}

theorem nonempty (h : Tiles pos cs ts) : ∀ t ∈ ts, t.span.start < t.span.stop := by
  induction h with
  | done => simp
  | blank _ _ ih => exact ih
  | token _ _ ih =>
      refine List.forall_mem_cons.mpr ⟨?_, ih⟩
      exact Nat.lt_add_of_pos_right (Nat.add_pos_left (Char.utf8Size_pos _) _)

theorem placed (h : Tiles pos cs ts) (before : List Char) (hpos : pos = byteLength before) :
    ∀ t ∈ ts, t.Placed (String.ofList (before ++ cs)) := by
  induction h generalizing before with
  | done => simp
  | @blank _ c cs _ _ _ ih =>
      have hnext := ih (before ++ [c]) (by rw [hpos, byteLength_append]; rfl)
      rwa [List.append_assoc] at hnext
  | @token _ kind c more cs _ _ _ ih =>
      subst hpos
      rw [← byteLength_append] at ih ⊢
      have hnext := ih (before ++ (c :: more)) rfl
      rw [← List.append_assoc]
      refine List.forall_mem_cons.mpr ⟨⟨?_, ?_⟩, hnext⟩
      · exact Span.onBoundaries_between before (c :: more) cs
      · exact Span.slice_between before (c :: more) cs

/-- Between the end of the last token, or the start of the source, and the text stand blanks. -/
theorem blank_gaps (h : Tiles pos cs ts) (before skipped : List Char)
    (hskipped : ∀ c ∈ skipped, isBlank c = true) (hpos : pos = byteLength (before ++ skipped)) :
    ∀ gap ∈ gaps (byteLength (before ++ skipped ++ cs)) (byteLength before) ts,
      ∀ c ∈ (gap.slice (String.ofList (before ++ skipped ++ cs))).toList, isBlank c = true := by
  induction h generalizing before skipped with
  | done =>
      have hslice := Span.slice_between before skipped []
      rw [List.append_nil] at hslice
      rw [gaps, List.forall_mem_singleton, List.append_nil, hslice, String.toList_ofList]
      exact hskipped
  | @blank _ c cs _ hc _ ih =>
      have hblank : ∀ d ∈ skipped ++ [c], isBlank d = true := by
        simpa [or_imp, forall_and, hc] using hskipped
      have hnext := ih before (skipped ++ [c]) hblank (by
        rw [hpos, ← List.append_assoc, byteLength_append (before ++ skipped)]; rfl)
      simpa using hnext
  | @token _ kind c more cs _ _ _ ih =>
      subst hpos
      rw [gaps, List.forall_mem_cons]
      refine ⟨?_, ?_⟩
      · rw [Span.slice_between, String.toList_ofList]
        exact hskipped
      · rw [← byteLength_append] at ih ⊢
        have hnext := ih (before ++ skipped ++ (c :: more)) [] (by simp) (by rw [List.append_nil])
        simpa using hnext

theorem unknown_single (h : Tiles pos cs ts) :
    ∀ t ∈ ts, t.kind = .unknown → ∃ c, t.lexeme = String.singleton c := by
  induction h with
  | done => simp
  | blank _ _ ih => exact ih
  | @token _ kind c more cs _ hunknown _ ih =>
      refine List.forall_mem_cons.mpr ⟨fun hkind => ⟨c, ?_⟩, ih⟩
      rw [hunknown hkind, String.singleton_eq_ofList]

end Tiles

/-- The complaints about tokens are in their order. -/
theorem forall₂_reports {ts : List Token}
    (h : ∀ t ∈ ts, t.kind = .unknown → ∃ c, t.lexeme = String.singleton c) :
    List.Forall₂ Reports (ts.filter (·.kind = .unknown)) (ts.filterMap LexError.ofToken?) := by
  induction ts with
  | nil => exact .nil
  | cons t ts ih =>
      obtain ⟨ht, hts⟩ := List.forall_mem_cons.mp h
      by_cases hkind : t.kind = .unknown
      · obtain ⟨c, hc⟩ := ht hkind
        have herror : LexError.ofToken? t = some ⟨c, t.span⟩ := by
          rw [LexError.ofToken?, if_pos hkind, hc, String.toList_singleton]
          rfl
        rw [List.filter_cons_of_pos (by simpa using hkind), List.filterMap_cons_some herror]
        exact .cons ⟨rfl, hc⟩ (ih hts)
      · have hnone : LexError.ofToken? t = none := if_neg hkind
        rw [List.filter_cons_of_neg (by simpa using hkind), List.filterMap_cons_none hnone]
        exact ih hts

theorem gaps_concat (size pos : Nat) (ts : List Token) :
    gaps size pos (ts ++ [eof size]) = gaps size pos ts ++ [⟨size, size⟩] := by
  induction ts generalizing pos with
  | nil => rfl
  | cons t ts ih => rw [List.cons_append, gaps, gaps, ih, List.cons_append]

end Token

namespace Laid

variable {size lo : Nat} {ts : List Token}

theorem le_start (h : Laid size lo ts) : ∀ t ∈ ts ++ [.eof size], lo ≤ t.span.start := by
  induction ts generalizing lo with
  | nil => exact List.forall_mem_singleton.mpr h
  | cons t ts ih =>
      obtain ⟨hlo, hstop, hrest⟩ := h
      rw [List.cons_append, List.forall_mem_cons]
      exact ⟨hlo, fun u hu => hlo.trans (hstop.trans (ih hrest u hu))⟩

theorem pairwise (h : Laid size lo ts) :
    (ts ++ [Token.eof size]).Pairwise fun a b => a.span.stop ≤ b.span.start := by
  induction ts generalizing lo with
  | nil => exact List.pairwise_singleton _ _
  | cons t ts ih => exact .cons h.2.2.le_start (ih h.2.2)

end Laid

/-- Tokens and complaints that say all about a source. -/
structure Lossless (source : String) (tokens : List Token) (errors : List LexError) : Prop where
  /-- The end marker comes last, and every token before it has a character. -/
  ended : ∃ ts, tokens = ts ++ [.eof source.utf8ByteSize] ∧ ∀ t ∈ ts, t.span.start < t.span.stop
  ordered : tokens.Pairwise fun a b => a.span.stop ≤ b.span.start
  placed : ∀ t ∈ tokens, t.Placed source
  blank : ∀ gap ∈ Token.gaps source.utf8ByteSize 0 tokens,
    ∀ c ∈ (gap.slice source).toList, isBlank c = true
  reported : List.Forall₂ Token.Reports (tokens.filter (·.kind = .unknown)) errors

/-- Scanning loses nothing of any source. -/
theorem scanning_loses_nothing (source : String) :
    Lossless source (Token.tokenize source) (Token.lexErrors source) := by
  have htiles : Token.Tiles 0 source.toList (Token.scan source) := Token.scanFrom_tiles 0 _
  have hlaid := Token.scanFrom_laid 0 source.toList
  rw [Nat.zero_add] at hlaid
  have hplaced := htiles.placed [] rfl
  have hgaps := htiles.blank_gaps [] [] (by simp) rfl
  simp only [List.nil_append, String.ofList_toList] at hplaced hgaps
  have htokens : Token.tokenize source = Token.scan source ++ [.eof source.utf8ByteSize] := by
    rw [Token.tokenize, byteLength_toList]
  rw [byteLength_toList] at hlaid hgaps
  rw [htokens]
  constructor
  case ended => exact ⟨_, rfl, htiles.nonempty⟩
  case ordered => exact hlaid.pairwise
  case placed =>
    rw [List.forall_mem_append, List.forall_mem_singleton]
    exact ⟨hplaced, ⟨String.Pos.Raw.isValid_rawEndPos, String.Pos.Raw.isValid_rawEndPos⟩,
      Span.slice_empty source _⟩
  case blank =>
    rw [Token.gaps_concat, List.forall_mem_append, List.forall_mem_singleton, Span.slice_empty]
    exact ⟨hgaps, by simp⟩
  case reported =>
    simpa [Token.eof, Token.lexErrors] using Token.forall₂_reports htiles.unknown_single

end ScalarLang
