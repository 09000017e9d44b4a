import Mathlib
import ScalarLang.Command.Dialogue
import ScalarLang.Proofs.Parse.Derivations
import ScalarLang.Proofs.Token.LongestMatch

/-
  When a command is complete.
  A dialogue gathers lines as long as brackets are open, and counts the brackets of all the text.
  The grammar balances the tokens that are brackets, and no other token has a bracket in it unless
  it is a comment. So an accepted command leaves open what its comments leave open: the dialogue
  goes on waiting exactly if its comments open more brackets than they close.
-/

namespace ScalarLang

/-! ## Brackets in a text -/

/-- What a character adds to the number of open brackets. -/
def bracketWeight (c : Char) : Int :=
  if c = '(' || c = '\x7b' then 1 else if c = ')' || c = '\x7d' then -1 else 0

def bracketNet (cs : List Char) : Int := (cs.map bracketWeight).sum

@[simp] theorem bracketNet_nil : bracketNet [] = 0 := rfl

@[simp] theorem bracketNet_cons (c : Char) (cs : List Char) :
    bracketNet (c :: cs) = bracketWeight c + bracketNet cs := by
  simp [bracketNet]

@[simp] theorem bracketNet_append (cs ds : List Char) :
    bracketNet (cs ++ ds) = bracketNet cs + bracketNet ds := by
  simp [bracketNet]

theorem bracketDepth_eq (text : String) : bracketDepth text = bracketNet text.toList := by
  have hfold (cs : List Char) (depth : Int) : cs.foldl (fun depth c =>
      if c = '(' || c = '\x7b' then depth + 1
      else if c = ')' || c = '\x7d' then depth - 1
      else depth) depth = depth + bracketNet cs := by
    induction cs generalizing depth with
    | nil => simp
    | cons c cs ih =>
        rw [List.foldl_cons, ih, bracketNet_cons, bracketWeight]
        split_ifs <;> omega
  rw [bracketDepth, hfold, Int.zero_add]

/-- The characters that are brackets. -/
def brackets : List Char := ['(', ')', '\x7b', '\x7d']

theorem bracketWeight_of_not_mem {c : Char} (h : c ∉ brackets) : bracketWeight c = 0 := by
  simp only [brackets, List.mem_cons, List.not_mem_nil, or_false, not_or] at h
  simp [bracketWeight, h]

theorem bracketNet_of_avoids {cs : List Char} (h : ∀ c ∈ brackets, c ∉ cs) : bracketNet cs = 0 := by
  induction cs with
  | nil => rfl
  | cons c cs ih =>
      have hc : c ∉ brackets := fun hmem => h c hmem List.mem_cons_self
      have hcs : ∀ d ∈ brackets, d ∉ cs := fun d hd hmem => h d hd (List.mem_cons_of_mem c hmem)
      rw [bracketNet_cons, bracketWeight_of_not_mem hc, ih hcs, Int.add_zero]

/-! ## Brackets in tokens -/

/-- What a token that is no comment adds to the number of open brackets. -/
def TokenKind.weight : TokenKind → Int
  | lParen | lBrace => 1
  | rParen | rBrace => -1
  | _ => 0

theorem TokenKind.bracket_of_weight {kind : TokenKind} (h : kind.weight ≠ 0) :
    kind = .lParen ∨ kind = .lBrace ∨ kind = .rParen ∨ kind = .rBrace := by
  revert h
  cases kind <;> decide

/-- No text of the pattern has the character. -/
def Pattern.avoids (c : Char) : Pattern → Bool
  | exact text => !text.toList.contains c
  | oneOf ranges => !ranges.any (·.contains c)
  | noneOf ranges => ranges.any (·.contains c)
  | seq first second => first.avoids c && second.avoids c
  | optional p | many p => p.avoids c

theorem Pattern.not_mem_of_avoids {c : Char} {p : Pattern} (h : p.avoids c = true)
    {w : List Char} (hw : w ∈ p.language) : c ∉ w := by
  induction p generalizing w with
  | exact text =>
      obtain rfl : w = text.toList := hw
      simpa [avoids] using h
  | oneOf ranges =>
      obtain ⟨d, rfl, hd⟩ := hw
      rw [List.mem_singleton]
      rintro rfl
      exact absurd hd (by simpa only [avoids, Bool.not_eq_true', Bool.not_eq_true] using h)
  | noneOf ranges =>
      obtain ⟨d, rfl, hd⟩ := hw
      rw [List.mem_singleton]
      rintro rfl
      exact absurd h (by simpa only [avoids, Bool.not_eq_true', Bool.not_eq_true] using hd)
  | seq first second ih ih' =>
      obtain ⟨hfirst, hsecond⟩ := Bool.and_eq_true_iff.mp h
      obtain ⟨u, hu, v, hv, rfl⟩ := mem_seq.mp hw
      exact fun hmem => (List.mem_append.mp hmem).elim (ih hfirst hu) (ih' hsecond hv)
  | optional p ih =>
      rcases mem_optional.mp hw with rfl | hw
      · exact List.not_mem_nil
      · exact ih h hw
  | many p ih =>
      obtain ⟨us, rfl, hus⟩ := Language.mem_kstar.mp hw
      intro hmem
      obtain ⟨u, hu, hc⟩ := List.mem_flatten.mp hmem
      exact ih h (hus u hu) hc

theorem Rule.declared_avoids {r : Rule} (hr : r ∈ declared) (hcomment : r.kind ≠ .comment)
    (hweight : r.kind.weight = 0) {c : Char} (hc : c ∈ brackets) : r.pattern.avoids c = true := by
  have hall : (declared.all fun r => r.kind == .comment || r.kind.weight != 0 ||
      brackets.all (r.pattern.avoids ·)) = true := by decide +kernel
  have h := List.all_eq_true.mp hall r hr
  simp only [Bool.or_eq_true, beq_iff_eq, hcomment, bne_iff_ne, hweight, ne_eq,
    not_true_eq_false, false_or, List.all_eq_true] at h
  exact h c hc

namespace Token

variable {source : String} {t : Token} {ts : List Token}

theorem chooses_of_mem_scan (ht : t ∈ scan source) (hknown : t.kind ≠ .unknown) :
    Rule.Chooses t.lexeme.toList t.kind := by
  obtain ⟨before, c, rest, -, hc, -, heq⟩ := scanFrom_origin 0 _ t ht
  have hmatch := munch_isLongestMatch c rest hc t.span
  rw [← heq] at hmatch
  exact hmatch.chosen hknown

/-- A token that is neither a comment nor a bracket has no bracket in it. -/
theorem bracketNet_lexeme (ht : t ∈ scan source) (hknown : t.kind ≠ .unknown)
    (hcomment : t.kind ≠ .comment) : bracketNet t.lexeme.toList = t.kind.weight := by
  by_cases hweight : t.kind.weight = 0
  · obtain ⟨⟨r, hr, hkind, hmatch⟩, -⟩ := chooses_of_mem_scan ht hknown
    rw [← hkind] at hcomment hweight ⊢
    rw [hweight]
    exact bracketNet_of_avoids fun c hc =>
      Pattern.not_mem_of_avoids (Rule.declared_avoids hr hcomment hweight hc) hmatch
  · have hspell := scanFrom_spells 0 _ t ht
    obtain hkind | hkind | hkind | hkind := TokenKind.bracket_of_weight hweight
    all_goals
      rw [hkind] at hspell ⊢
      rw [hspell rfl]
      decide

/-- How many brackets some tokens leave open. -/
def net (ts : List Token) : Int := (ts.map (·.kind.weight)).sum

@[simp] theorem net_nil : net [] = 0 := rfl

@[simp] theorem net_cons (t : Token) (ts : List Token) :
    net (t :: ts) = t.kind.weight + net ts := by
  simp [net]

@[simp] theorem net_append (ts us : List Token) : net (ts ++ us) = net ts + net us := by
  simp [net]

theorem Separators.net (h : Separators ts) : net ts = 0 := by
  induction ts with
  | nil => rfl
  | cons t ts ih =>
      obtain ⟨ht, hts⟩ := List.forall_mem_cons.mp h
      have hweight : t.kind.weight = 0 := by
        by_contra hne
        obtain hkind | hkind | hkind | hkind := TokenKind.bracket_of_weight hne
        all_goals
          rw [hkind] at ht
          cases ht
      rw [net_cons, hweight, ih hts, Int.add_zero]

end Token

theorem TokenKind.weight_of_conditionalForm? {kind : TokenKind} {form : ConditionalForm}
    (h : kind.conditionalForm? = some form) : kind.weight = 0 := by
  by_contra hne
  obtain rfl | rfl | rfl | rfl := bracket_of_weight hne <;> cases h

theorem TokenKind.weight_of_binaryOp? {kind : TokenKind} {op : BinaryOp}
    (h : kind.binaryOp? = some op) : kind.weight = 0 := by
  by_contra hne
  obtain rfl | rfl | rfl | rfl := bracket_of_weight hne <;> cases h

theorem TokenKind.weight_of_isLiteral {kind : TokenKind} (h : kind.isLiteral = true) :
    kind.weight = 0 := by
  by_contra hne
  obtain rfl | rfl | rfl | rfl := bracket_of_weight hne <;> cases h

/-- The brackets of all that derives are balanced. -/
theorem Derives.balanced {loose : Bool} {N : Nonterminal} {ts : List Token} {nodes : List Node}
    (h : Derives loose N ts nodes) : Token.net ts = 0 := by
  induction h with
  | blank hseps hlast => simp [hseps.net, hlast, TokenKind.weight]
  | fragment hbefore _ hafter hlast ih =>
      simp [hbefore.net, ih, hafter.net, hlast, TokenKind.weight]
  | single _ ih | definition _ ih | evaluation _ ih | choice _ ih | operators _ ih | tighter _ ih
  | tightest _ ih | primary _ ih | selection _ ih | argument _ ih => exact ih
  | sequence _ hseps _ _ ih ih' => simp [ih, hseps.net, ih']
  | function hword hname hopening hclosing hleft hbefore _ hafter hright ih =>
      simp [hword, hname, hopening, hclosing, hleft, hbefore.net, ih, hafter.net, hright,
        TokenKind.weight]
  | conditional hword _ _ hmid _ ih ih' ih'' =>
      have helse : TokenKind.elseWord.weight = 0 := rfl
      simp [TokenKind.weight_of_conditionalForm? hword, ih, ih', hmid, helse, ih'']
  | operation _ hsign _ ih ih' => simp [ih, TokenKind.weight_of_binaryOp? hsign, ih']
  | negation hsign _ ih => simp [hsign, ih, TokenKind.weight]
  | least hsign hnumber => simp [hsign, hnumber, TokenKind.weight]
  | literal h => simp [TokenKind.weight_of_isLiteral (Token.literal_isLiteral h)]
  | name h => simp [h, TokenKind.weight]
  | callEmpty hcallee hopening hclosing => simp [hcallee, hopening, hclosing, TokenKind.weight]
  | call hcallee hopening _ hclosing ih => simp [hcallee, hopening, ih, hclosing, TokenKind.weight]
  | callTrailing _ hcallee hopening _ hcomma hclosing ih =>
      simp [hcallee, hopening, ih, hcomma, hclosing, TokenKind.weight]
  | parentheses hopening _ hclosing ih => simp [hopening, ih, hclosing, TokenKind.weight]
  | arguments _ hcomma _ ih ih' => simp [ih, hcomma, ih', TokenKind.weight]

/-! ## Brackets in a source -/

namespace Token

theorem Tiles.bracketNet_eq {pos : Nat} {cs : List Char} {ts : List Token} (h : Tiles pos cs ts) :
    bracketNet cs = (ts.map fun t => bracketNet t.lexeme.toList).sum := by
  induction h with
  | done => rfl
  | @blank _ c _ _ hc _ ih =>
      have hweight : bracketWeight c = 0 := by
        refine bracketWeight_of_not_mem fun hmem => ?_
        have hall : brackets.all (!isBlank ·) = true := by decide
        have hbracket := List.all_eq_true.mp hall c hmem
        rw [hc] at hbracket
        cases hbracket
      rw [bracketNet_cons, hweight, ih, Int.zero_add]
  | token _ _ ih =>
      rw [bracketNet_append, ih, List.map_cons, List.sum_cons, String.toList_ofList]

/-- How many brackets the comments of a source leave open. -/
def commentDepth (source : String) : Int :=
  (((scan source).filter (·.kind.isTrivia)).map fun t => bracketDepth t.lexeme).sum

/-- The brackets of tokens are those of comments and those that are tokens themselves. -/
theorem sum_bracketNet {ts : List Token}
    (h : ∀ t ∈ ts, t.kind.isTrivia = false → bracketNet t.lexeme.toList = t.kind.weight) :
    (ts.map fun t => bracketNet t.lexeme.toList).sum =
      ((ts.filter (·.kind.isTrivia)).map fun t => bracketDepth t.lexeme).sum +
        net (ts.filter (!·.kind.isTrivia)) := by
  induction ts with
  | nil => rfl
  | cons t ts ih =>
      obtain ⟨ht, hts⟩ := List.forall_mem_cons.mp h
      rw [List.map_cons, List.sum_cons, ih hts]
      cases htrivia : t.kind.isTrivia with
      | true =>
          rw [List.filter_cons_of_pos (by simp [htrivia]),
            List.filter_cons_of_neg (by simp [htrivia]),
            List.map_cons, List.sum_cons, bracketDepth_eq, Int.add_assoc]
      | false =>
          rw [List.filter_cons_of_neg (by simp [htrivia]),
            List.filter_cons_of_pos (by simp [htrivia]), net_cons, ht htrivia]
          omega

theorem bracketDepth_scan {source : String} (h : ∀ t ∈ scan source, t.kind ≠ .unknown) :
    bracketDepth source =
      commentDepth source + net ((scan source).filter (!·.kind.isTrivia)) := by
  rw [bracketDepth_eq, (scanFrom_tiles 0 source.toList).bracketNet_eq]
  refine sum_bracketNet fun t ht htrivia => bracketNet_lexeme ht (h t ht) fun hcomment => ?_
  rw [hcomment] at htrivia
  cases htrivia

end Token

theorem Fragment.known_of_parse {source : String} {f : Fragment} (h : parse source = .ok f) :
    ∀ t ∈ Token.scan source, t.kind ≠ .unknown := by
  have hnone : Token.lexErrors source = [] := by
    unfold parse at h
    split at h
    · assumption
    · cases h
  intro t ht hunknown
  have herror := List.filterMap_eq_nil_iff.mp hnone t ht
  rw [LexError.ofToken?, if_pos hunknown] at herror
  cases herror

/-- An accepted source leaves open the brackets that its comments leave open. -/
theorem Fragment.bracketDepth_of_parse {source : String} {f : Fragment}
    (h : parse source = .ok f) : bracketDepth source = Token.commentDepth source := by
  have hbalanced := (parse_derives h).balanced
  rw [Token.significant_eq, Token.net_append, Token.net_cons, Token.net_nil] at hbalanced
  have hend : (Token.eof (byteLength source.toList)).kind.weight = 0 := rfl
  have hscan := Token.bracketDepth_scan (known_of_parse h)
  have htokens : (Stream.ofSource source).tokens =
      (Token.scan source).filter (!·.kind.isTrivia) := rfl
  rw [htokens] at hbalanced
  omega

/-! ## The dialogue -/

theorem isComplete_iff {command : String} {f : Fragment} (h : Fragment.parse command = .ok f) :
    isComplete command = true ↔ Token.commentDepth command ≤ 0 := by
  rw [isComplete, Fragment.bracketDepth_of_parse h, decide_eq_true_iff]

/-- A command that is accepted is complete exactly if its comments open no more brackets than they
    close. Then the dialogue carries it out with the line that makes it, and otherwise it goes on
    waiting. -/
theorem accepted_command_complete_iff {command : String} {f : Fragment}
    (h : Fragment.parse command = .ok f) :
    (isComplete command = true ↔ Token.commentDepth command ≤ 0) ∧
    ∀ (d : Dialogue) (current : Settings) (line : String), d.gather? line = some command →
      d.read current line =
        if Token.commentDepth command ≤ 0 then { d with pending := none }.perform current command
        else ({}, { d with pending := some command }) := by
  refine ⟨isComplete_iff h, fun d current line hgather => ?_⟩
  rw [Dialogue.read, hgather]
  exact if_congr (isComplete_iff h) rfl rfl

/-- A definition over three lines, with balanced brackets in its comment. -/
def commentedDefinition : String := "def f() \x7b\n(1) // (one)\n\x7d"

theorem commentedDefinition_carried_out :
    ∃ f, Fragment.parse commentedDefinition = .ok f ∧ isComplete commentedDefinition = true ∧
      ∀ settings current : Settings,
        { Dialogue.new settings with
            pending := some "def f() \x7b\n(1) // (one)" }.read current "\x7d" =
          (Dialogue.new settings).perform current commentedDefinition := by
  have hok : (Fragment.parse commentedDefinition).isOk = true := by decide +kernel
  have hdepth : Token.commentDepth commentedDefinition ≤ 0 := by decide +kernel
  rcases hf : Fragment.parse commentedDefinition with errors | f
  · rw [hf] at hok
    cases hok
  · obtain ⟨hcomplete, hread⟩ := accepted_command_complete_iff hf
    refine ⟨f, rfl, hcomplete.mpr hdepth, fun settings current => ?_⟩
    rw [hread _ current "\x7d" rfl, if_pos hdepth]
    rfl

/-- A bracket in a comment keeps the dialogue waiting, although the command is accepted. -/
theorem bracket_in_comment_keeps_waiting :
    (Fragment.parse "1 // (").isOk = true ∧ isComplete "1 // (" = false ∧
      ∀ (settings current : Settings),
        ((Dialogue.new settings).read current "1 // (").2.pending = some "1 // (" := by
  refine ⟨by decide +kernel, by decide +kernel, fun settings current => ?_⟩
  rfl

end ScalarLang
