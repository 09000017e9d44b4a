import Mathlib
import ScalarLang.Source.Location

/-
  Lines and columns are exact.
  The text before a boundary consists of whole lines and of the left part of a line. The table of
  line starts divides there as the text does: the starts of those lines and of this one come first,
  and later lines start later. So the bisection ends behind the start of this line, and between it
  and the boundary stands the left part, whose characters are counted.
-/

namespace ScalarLang

/-! ## Bytes -/

theorem byteLength_eq_utf8Len (cs : List Char) : byteLength cs = String.utf8Len cs := by
  induction cs with
  | nil => rfl
  | cons c cs ih => rw [byteLength_cons, String.utf8Len_cons, ih, Nat.add_comm]

theorem byteLength_toList (source : String) : byteLength source.toList = source.utf8ByteSize := by
  rw [byteLength_eq_utf8Len, ← String.utf8ByteSize_ofList, String.ofList_toList]

theorem splitBytes?_append (before after : List Char) :
    splitBytes? (before ++ after) (byteLength before) = some (before, after) := by
  induction before with
  | nil => simp [splitBytes?]
  | cons c before ih =>
      obtain ⟨count, hcount⟩ : ∃ count, byteLength (c :: before) = count + 1 :=
        Nat.exists_eq_add_one.mpr (Nat.add_pos_left c.utf8Size_pos _)
      have hrest : count + 1 - c.utf8Size = byteLength before := by
        rw [← hcount, byteLength_cons, Nat.add_sub_cancel_left]
      have hle : ¬ count + 1 < c.utf8Size := by
        rw [← hcount, byteLength_cons]
        omega
      rw [hcount, List.cons_append, splitBytes?, if_neg hle, hrest, ih]
      rfl

theorem eq_of_splitBytes? {cs before after : List Char} {count : Nat}
    (h : splitBytes? cs count = some (before, after)) :
    cs = before ++ after ∧ byteLength before = count := by
  fun_induction splitBytes? cs count generalizing before with
  | case1 cs =>
      obtain ⟨rfl, rfl⟩ := Prod.mk.inj (Option.some.inj h)
      exact ⟨rfl, rfl⟩
  | case2 => cases h
  | case3 => cases h
  | case4 c cs count hle ih =>
      obtain ⟨⟨rest, after'⟩, hrest, heq⟩ := Option.map_eq_some_iff.mp h
      obtain ⟨rfl, rfl⟩ := Prod.mk.inj heq
      obtain ⟨rfl, hlength⟩ := ih hrest
      refine ⟨rfl, ?_⟩
      rw [byteLength_cons, hlength]
      omega

/-! ## Bisection -/

/-- Where `holds` changes once, the bisection ends there. -/
theorem partitionPoint_eq {holds : Nat → Bool} {low high point : Nat} (hlow : low ≤ point)
    (hhigh : point ≤ high) (hbefore : ∀ k < point, holds k = true)
    (hafter : ∀ k, point ≤ k → k < high → holds k = false) :
    partitionPoint holds low high = point := by
  fun_induction partitionPoint holds low high with
  | case1 low high hlt middle hholds ih =>
      refine ih ?_ hhigh hafter
      by_contra hpoint
      rw [hafter middle (by omega) (by omega)] at hholds
      cases hholds
  | case2 low high hlt middle hfails ih =>
      refine ih hlow ?_ fun k hk hlt => hafter k hk (by omega)
      by_contra hpoint
      exact hfails (hbefore middle (by omega))
  | case3 low high hge => omega

/-! ## Line starts -/

theorem newlineEnds_append (pos : Nat) (cs ds : List Char) :
    newlineEnds pos (cs ++ ds) = newlineEnds pos cs ++ newlineEnds (pos + byteLength cs) ds := by
  induction cs generalizing pos with
  | nil => rfl
  | cons c cs ih =>
      simp only [List.cons_append, newlineEnds, ih, byteLength_cons, ← Nat.add_assoc]
      split <;> rfl

theorem length_newlineEnds (pos : Nat) (cs : List Char) :
    (newlineEnds pos cs).length = cs.count '\n' := by
  induction cs generalizing pos with
  | nil => rfl
  | cons c cs ih =>
      rw [newlineEnds]
      split
      · rename_i hc
        rw [hc, List.length_cons, ih, List.count_cons_self]
      · rename_i hc
        rw [ih, List.count_cons_of_ne hc]

theorem newlineEnds_bounds {pos start : Nat} {cs : List Char} (h : start ∈ newlineEnds pos cs) :
    pos < start ∧ start ≤ pos + byteLength cs := by
  induction cs generalizing pos with
  | nil => cases h
  | cons c cs ih =>
      have hpos := c.utf8Size_pos
      rw [byteLength_cons]
      rw [newlineEnds] at h
      split at h
      · rcases List.mem_cons.mp h with rfl | h
        · omega
        · have := ih h
          omega
      · have := ih h
        omega

theorem getElem?_lineStarts (source : String) (k : Nat) :
    (lineStarts source)[k]? = (0 :: newlineEnds 0 source.toList)[k]? := by
  rw [lineStarts, List.getElem?_toArray]

theorem lineCount_eq (source : String) : lineCount source = source.toList.count '\n' + 1 := by
  rw [lineCount, lineStarts, List.size_toArray, List.length_cons, length_newlineEnds]

/-- The lines that start in a text, the first one included, start at its end or before. -/
theorem start_le {start : Nat} {cs : List Char} (h : start ∈ 0 :: newlineEnds 0 cs) :
    start ≤ byteLength cs := by
  rcases List.mem_cons.mp h with rfl | h
  · exact Nat.zero_le _
  · have := (newlineEnds_bounds h).2
    omega

/-- The table, divided at an offset. -/
theorem getElem?_lineStarts_append (before after : List Char) (k : Nat) :
    (lineStarts (String.ofList (before ++ after)))[k]? =
      (0 :: newlineEnds 0 before ++ newlineEnds (byteLength before) after)[k]? := by
  rw [getElem?_lineStarts, String.toList_ofList, newlineEnds_append, Nat.zero_add, List.cons_append]

/-- An offset is on the line whose number is that of the newlines before it. -/
theorem lineOf_append (before after : List Char) :
    lineOf (lineStarts (String.ofList (before ++ after))) (byteLength before) =
      before.count '\n' := by
  have hcount := lineCount_eq (String.ofList (before ++ after))
  rw [String.toList_ofList, List.count_append, lineCount] at hcount
  have hlength : (0 :: newlineEnds 0 before).length = before.count '\n' + 1 := by
    rw [List.length_cons, length_newlineEnds]
  have hpoint : partitionPoint (fun k => (lineStarts (String.ofList (before ++ after)))[k]?.any
      (· ≤ byteLength before)) 0 (lineStarts (String.ofList (before ++ after))).size =
        before.count '\n' + 1 := by
    refine partitionPoint_eq (Nat.zero_le _) (by omega) (fun k hk => ?_) fun k hk _ => ?_
    · have hmem := List.getElem_mem (l := 0 :: newlineEnds 0 before) (hlength ▸ hk)
      rw [getElem?_lineStarts_append, List.getElem?_append_left (hlength ▸ hk),
        List.getElem?_eq_getElem (hlength ▸ hk), Option.any_some, decide_eq_true_eq]
      exact start_le hmem
    · rw [getElem?_lineStarts_append, List.getElem?_append_right (hlength ▸ hk),
        Option.any_eq_false]
      intro start hstart
      have := (newlineEnds_bounds (List.mem_of_getElem? hstart)).1
      simpa using this
  rw [lineOf, hpoint, Nat.add_sub_cancel]

/-! ## Lines -/

theorem length_splitOn (cs : List Char) :
    (cs.splitOn '\n').length = cs.count '\n' + 1 := by
  induction cs with
  | nil => rw [List.splitOn_nil]; rfl
  | cons c cs ih =>
      rw [List.splitOn_cons_eq_if_modifyHead]
      by_cases hc : c = '\n'
      · rw [if_pos (beq_iff_eq.mpr hc), hc, List.length_cons, ih, List.count_cons_self]
      · rw [if_neg (by simpa using hc), List.length_modifyHead, ih, List.count_cons_of_ne hc]

/-- Nothing, or lines of which each is ended by a newline. -/
def WholeLines (cs : List Char) : Prop := ∀ c ∈ cs.getLast?, c = '\n'

theorem wholeLines_concat {cs : List Char} {c : Char} : WholeLines (cs ++ [c]) ↔ c = '\n' := by
  unfold WholeLines
  rw [List.getLast?_concat]
  exact ⟨fun h => h c rfl, fun h d hd => (Option.some.inj hd) ▸ h⟩

theorem exists_wholeLines_append (cs : List Char) :
    ∃ front line, cs = front ++ line ∧ WholeLines front ∧ '\n' ∉ line := by
  induction cs using List.reverseRecOn with
  | nil => exact ⟨[], [], rfl, by simp [WholeLines], List.not_mem_nil⟩
  | append_singleton cs c ih =>
      by_cases hc : c = '\n'
      · exact ⟨cs ++ [c], [], (List.append_nil _).symm, wholeLines_concat.mpr hc, List.not_mem_nil⟩
      · obtain ⟨front, line, rfl, hfront, hline⟩ := ih
        refine ⟨front, line ++ [c], List.append_assoc _ _ _, hfront, ?_⟩
        simpa [Ne.symm hc] using hline

theorem exists_line_append (cs : List Char) :
    ∃ line rest, cs = line ++ rest ∧ '\n' ∉ line ∧ ∀ c ∈ rest.head?, c = '\n' := by
  induction cs with
  | nil => exact ⟨[], [], rfl, List.not_mem_nil, by simp⟩
  | cons c cs ih =>
      by_cases hc : c = '\n'
      · exact ⟨[], c :: cs, rfl, List.not_mem_nil, fun d hd => (Option.some.inj hd) ▸ hc⟩
      · obtain ⟨line, rest, rfl, hline, hrest⟩ := ih
        exact ⟨c :: line, rest, rfl, List.not_mem_cons_of_ne_of_not_mem (Ne.symm hc) hline, hrest⟩

/-- The line after some whole lines starts where they end. -/
theorem WholeLines.getElem?_lineStarts {front : List Char} (h : WholeLines front)
    (rest : List Char) : (lineStarts (String.ofList (front ++ rest)))[front.count '\n']? =
      some (byteLength front) := by
  rw [ScalarLang.getElem?_lineStarts, String.toList_ofList]
  rcases List.eq_nil_or_concat front with rfl | ⟨lines, c, rfl⟩
  · rfl
  · rw [List.concat_eq_append] at h ⊢
    obtain rfl := wholeLines_concat.mp h
    rw [List.count_append, List.count_singleton_self, List.getElem?_cons_succ, newlineEnds_append,
      newlineEnds_append, List.append_assoc, ← length_newlineEnds 0 lines,
      List.getElem?_append_right (Nat.le_refl _), Nat.sub_self, byteLength_append, Nat.zero_add]
    rfl

/-- As many lines come before a line as there are newlines before it. -/
theorem WholeLines.getElem?_splitOn {front line rest : List Char} (hfront : WholeLines front)
    (hline : '\n' ∉ line) (hrest : ∀ c ∈ rest.head?, c = '\n') :
    ((front ++ (line ++ rest)).splitOn '\n')[front.count '\n']? = some line := by
  have hfirst : ((line ++ rest).splitOn '\n')[0]? = some line := by
    cases rest with
    | nil => rw [List.append_nil, List.splitOn_eq_singleton hline, List.getElem?_cons_zero]
    | cons c rest =>
        rw [hrest c rfl, List.splitOn_append_cons_self_of_not_mem hline, List.getElem?_cons_zero]
  rcases List.eq_nil_or_concat front with rfl | ⟨lines, c, rfl⟩
  · rwa [List.nil_append, List.count_nil]
  · rw [List.concat_eq_append] at hfront ⊢
    obtain rfl := wholeLines_concat.mp hfront
    rw [List.count_append, List.count_singleton_self, ← length_splitOn, List.append_assoc,
      List.singleton_append, List.splitOn_append_cons_self,
      List.getElem?_append_right (Nat.le_refl _), Nat.sub_self, hfirst]

theorem WholeLines.cons {c : Char} {cs : List Char} (h : WholeLines cs)
    (hc : cs = [] → c = '\n') : WholeLines (c :: cs) := by
  unfold WholeLines
  rw [List.getLast?_cons]
  intro d hd
  obtain rfl := Option.some.inj hd
  cases hlast : cs.getLast? with
  | none => exact hc (List.getLast?_eq_none_iff.mp hlast)
  | some e => exact h e hlast

/-- A text with enough newlines starts with any number of whole lines. -/
theorem exists_wholeLines_of_le {cs : List Char} {k : Nat} (h : k ≤ cs.count '\n') :
    ∃ front rest, cs = front ++ rest ∧ WholeLines front ∧ front.count '\n' = k := by
  induction cs generalizing k with
  | nil => exact ⟨[], [], rfl, by simp [WholeLines], (Nat.le_zero.mp h).symm⟩
  | cons c cs ih =>
      cases k with
      | zero => exact ⟨[], c :: cs, rfl, by simp [WholeLines], rfl⟩
      | succ k =>
          by_cases hc : c = '\n'
          · rw [hc, List.count_cons_self] at h
            obtain ⟨front, rest, rfl, hfront, hcount⟩ := ih (Nat.le_of_succ_le_succ h)
            refine ⟨c :: front, rest, rfl, hfront.cons fun _ => hc, ?_⟩
            rw [hc, List.count_cons_self, hcount]
          · rw [List.count_cons_of_ne hc] at h
            obtain ⟨front, rest, rfl, hfront, hcount⟩ := ih h
            refine ⟨c :: front, rest, rfl, hfront.cons fun hnil => ?_, ?_⟩
            · rw [hnil] at hcount
              cases hcount
            · rw [List.count_cons_of_ne hc, hcount]

/-! ## Locations and texts -/

theorem Location.ofOffset?_lines {front left : List Char} (hfront : WholeLines front)
    (hleft : '\n' ∉ left) (rest : List Char) :
    ofOffset? (String.ofList (front ++ left ++ rest)) (byteLength (front ++ left)) =
      some ⟨front.count '\n' + 1, left.length + 1⟩ := by
  have hmin : min (byteLength (front ++ left)) (byteLength (front ++ left ++ rest)) =
      byteLength (front ++ left) :=
    Nat.min_eq_left (byteLength_append (front ++ left) rest ▸ Nat.le_add_right _ _)
  have hcount : (front ++ left).count '\n' = front.count '\n' := by
    rw [List.count_append, List.count_eq_zero.mpr hleft, Nat.add_zero]
  have hstart := hfront.getElem?_lineStarts (left ++ rest)
  rw [← List.append_assoc] at hstart
  simp only [ofOffset?, String.toList_ofList, hmin, lineOf_append, hcount, hstart,
    splitBytes?_append, Option.bind_eq_bind, Option.bind_some, Option.pure_def]

theorem lineText_lines {front line rest : List Char} (hfront : WholeLines front)
    (hline : '\n' ∉ line) (hrest : ∀ c ∈ rest.head?, c = '\n') :
    lineText (String.ofList (front ++ (line ++ rest))) (front.count '\n' + 1) =
      String.ofList (dropReturns line) := by
  have htake : (line ++ rest).takeWhile (· != '\n') = line := by
    have hall : ∀ c ∈ line, (c != '\n') = true := fun c hc =>
      bne_iff_ne.mpr fun h => hline (h ▸ hc)
    rw [List.takeWhile_append_of_pos hall]
    cases rest with
    | nil => exact List.append_nil _
    | cons c rest => rw [hrest c rfl, List.takeWhile_cons_of_neg (by decide), List.append_nil]
  simp only [lineText, Nat.add_sub_cancel, hfront.getElem?_lineStarts, String.toList_ofList,
    splitBytes?_append, htake, Option.bind_eq_bind, Option.bind_some, Option.pure_def,
    Option.getD_some]

namespace Location

/-- The location behind some characters: one line for each newline and, since the last of them, one
    column for each character. -/
def after (cs : List Char) : Location :=
  ⟨cs.count '\n' + 1, (cs.rtakeWhile (· != '\n')).length + 1⟩

/-- The order of locations, lines first. -/
def Before (l l' : Location) : Prop :=
  l.line < l'.line ∨ l.line = l'.line ∧ l.column < l'.column

theorem not_before_self (l : Location) : ¬ l.Before l := by
  rintro (h | ⟨-, h⟩) <;> exact Nat.lt_irrefl _ h

theorem rtakeWhile_append_of_not_mem (cs : List Char) {left : List Char} (h : '\n' ∉ left) :
    (cs ++ left).rtakeWhile (· != '\n') = cs.rtakeWhile (· != '\n') ++ left := by
  have hall : ∀ c ∈ left.reverse, (c != '\n') = true := fun c hc =>
    bne_iff_ne.mpr fun hn => h (hn ▸ List.mem_reverse.mp hc)
  rw [List.rtakeWhile, List.reverse_append, List.takeWhile_append_of_pos hall,
    List.reverse_append, List.reverse_reverse, List.rtakeWhile]

theorem after_lines {front left : List Char} (hfront : WholeLines front) (hleft : '\n' ∉ left) :
    after (front ++ left) = ⟨front.count '\n' + 1, left.length + 1⟩ := by
  have hfront' : front.rtakeWhile (· != '\n') = [] := by
    rcases List.eq_nil_or_concat front with rfl | ⟨lines, c, rfl⟩
    · rfl
    · rw [List.concat_eq_append] at hfront ⊢
      rw [wholeLines_concat.mp hfront, List.rtakeWhile_concat_neg _ _ _ (by decide)]
  rw [after, rtakeWhile_append_of_not_mem _ hleft, hfront', List.nil_append, List.count_append,
    List.count_eq_zero.mpr hleft, Nat.add_zero]

theorem ofOffset?_append (before rest : List Char) :
    ofOffset? (String.ofList (before ++ rest)) (byteLength before) = some (after before) := by
  obtain ⟨front, left, rfl, hfront, hleft⟩ := exists_wholeLines_append before
  rw [ofOffset?_lines hfront hleft, after_lines hfront hleft]

/-- More characters lead further. -/
theorem after_before (before : List Char) {more : List Char} (h : more ≠ []) :
    (after before).Before (after (before ++ more)) := by
  unfold Before after
  rw [List.count_append]
  by_cases hmore : '\n' ∈ more
  · have := List.count_pos_iff.mpr hmore
    exact Or.inl (by dsimp only; omega)
  · have := List.length_pos_of_ne_nil h
    rw [rtakeWhile_append_of_not_mem _ hmore, List.length_append, List.count_eq_zero.mpr hmore]
    exact Or.inr ⟨rfl, by dsimp only; omega⟩

end Location

/-! ## Sources -/

theorem isValid_iff {source : String} {offset : Nat} :
    String.Pos.Raw.IsValid source ⟨offset⟩ ↔
      ∃ before rest, source = String.ofList (before ++ rest) ∧ byteLength before = offset := by
  rw [String.Pos.Raw.isValid_iff_exists_append]
  constructor
  · rintro ⟨before, rest, rfl, hoffset⟩
    refine ⟨before.toList, rest.toList, ?_, ?_⟩
    · rw [String.ofList_append, String.ofList_toList, String.ofList_toList]
    · rw [byteLength_toList]
      exact (congrArg String.Pos.Raw.byteIdx hoffset).symm
  · rintro ⟨before, rest, rfl, rfl⟩
    refine ⟨String.ofList before, String.ofList rest, String.ofList_append, ?_⟩
    rw [String.rawEndPos_ofList, byteLength_eq_utf8Len]

theorem extract_append (before rest : List Char) :
    String.Pos.Raw.extract (String.ofList (before ++ rest)) ⟨0⟩ ⟨byteLength before⟩ =
      String.ofList before := by
  have h := String.extract_of_valid [] before rest
  rwa [List.nil_append, String.utf8Len_nil, Nat.zero_add, ← byteLength_eq_utf8Len] at h

/-- The earlier of two boundaries has less text before it. -/
theorem exists_more_of_lt {before rest before' rest' : List Char}
    (heq : before ++ rest = before' ++ rest') (hlt : byteLength before < byteLength before') :
    ∃ more, more ≠ [] ∧ before' = before ++ more := by
  rcases List.append_eq_append_iff.mp heq with ⟨more, rfl, -⟩ | ⟨more, rfl, -⟩
  · refine ⟨more, ?_, rfl⟩
    rintro rfl
    rw [List.append_nil] at hlt
    exact Nat.lt_irrefl _ hlt
  · rw [byteLength_append] at hlt
    omega

/-- What the lines and columns of a source are. Offsets are boundaries if they stand between
    characters or at an end. -/
structure LinesExact (source : String) : Prop where
  located : ∀ offset, String.Pos.Raw.IsValid source ⟨offset⟩ →
    Location.ofOffset? source offset =
      some (.after (String.Pos.Raw.extract source ⟨0⟩ ⟨offset⟩).toList)
  increasing : ∀ offset offset', String.Pos.Raw.IsValid source ⟨offset⟩ →
    String.Pos.Raw.IsValid source ⟨offset'⟩ → offset < offset' →
      ∃ l l', Location.ofOffset? source offset = some l ∧
        Location.ofOffset? source offset' = some l' ∧ l.Before l'
  injective : ∀ offset offset', String.Pos.Raw.IsValid source ⟨offset⟩ →
    String.Pos.Raw.IsValid source ⟨offset'⟩ →
      Location.ofOffset? source offset = Location.ofOffset? source offset' → offset = offset'
  inside : ∀ offset < source.utf8ByteSize, ¬ String.Pos.Raw.IsValid source ⟨offset⟩ →
    Location.ofOffset? source offset = none
  past_end : ∀ offset, source.utf8ByteSize ≤ offset →
    Location.ofOffset? source offset = Location.ofOffset? source source.utf8ByteSize
  count : lineCount source = (source.toList.splitOn '\n').length
  text : ∀ line, 1 ≤ line → line ≤ lineCount source →
    ∃ piece, (source.toList.splitOn '\n')[line - 1]? = some piece ∧
      lineText source line = String.ofList (piece.rdropWhile (· == '\r'))
  text_past_end : ∀ line, lineCount source < line → lineText source line = ""

namespace Location

theorem ofOffset?_increasing {source : String} {offset offset' : Nat}
    (h : String.Pos.Raw.IsValid source ⟨offset⟩) (h' : String.Pos.Raw.IsValid source ⟨offset'⟩)
    (hlt : offset < offset') :
    ∃ l l', ofOffset? source offset = some l ∧ ofOffset? source offset' = some l' ∧
      l.Before l' := by
  obtain ⟨before, rest, rfl, rfl⟩ := isValid_iff.mp h
  obtain ⟨before', rest', hsource, rfl⟩ := isValid_iff.mp h'
  obtain ⟨more, hmore, rfl⟩ := exists_more_of_lt (String.ofList_injective hsource) hlt
  refine ⟨_, _, ofOffset?_append before rest, ?_, after_before before hmore⟩
  rw [hsource]
  exact ofOffset?_append _ rest'

/-- Only boundaries, and what is past the end, have a location. -/
theorem isValid_of_ofOffset? {source : String} {offset : Nat} {l : Location}
    (h : ofOffset? source offset = some l) (hlt : offset < source.utf8ByteSize) :
    String.Pos.Raw.IsValid source ⟨offset⟩ := by
  rw [← byteLength_toList] at hlt
  simp only [ofOffset?, Nat.min_eq_left hlt.le, Option.bind_eq_bind, Option.bind_eq_some_iff] at h
  obtain ⟨_, -, ⟨before, rest⟩, hsplit, -⟩ := h
  obtain ⟨hsource, hlength⟩ := eq_of_splitBytes? hsplit
  exact isValid_iff.mpr ⟨before, rest, by rw [← hsource, String.ofList_toList], hlength⟩

end Location

/-- The lines and columns of every source are exact. -/
theorem lines_and_columns_exact (source : String) : LinesExact source where
  located offset h := by
    obtain ⟨before, rest, rfl, rfl⟩ := isValid_iff.mp h
    rw [extract_append, String.toList_ofList, Location.ofOffset?_append]
  increasing _ _ h h' hlt := Location.ofOffset?_increasing h h' hlt
  injective offset offset' h h' heq := by
    by_contra hne
    rcases Nat.lt_or_gt_of_ne hne with hlt | hlt
    · obtain ⟨l, l', hl, hl', hbefore⟩ := Location.ofOffset?_increasing h h' hlt
      obtain rfl : l = l' := Option.some.inj (hl.symm.trans (heq.trans hl'))
      exact l.not_before_self hbefore
    · obtain ⟨l, l', hl, hl', hbefore⟩ := Location.ofOffset?_increasing h' h hlt
      obtain rfl : l = l' := Option.some.inj (hl.symm.trans (heq.symm.trans hl'))
      exact l.not_before_self hbefore
  inside offset hlt hinside := by
    by_contra hne
    obtain ⟨l, hl⟩ := Option.ne_none_iff_exists'.mp hne
    exact hinside (Location.isValid_of_ofOffset? hl hlt)
  past_end offset hle := by
    rw [Location.ofOffset?, Location.ofOffset?, byteLength_toList, Nat.min_eq_right hle, Nat.min_self]
  count := by rw [lineCount_eq, length_splitOn]
  text line hpos hle := by
    obtain ⟨k, rfl⟩ := Nat.exists_eq_add_of_le' hpos
    rw [lineCount_eq, Nat.add_le_add_iff_right] at hle
    obtain ⟨front, text, hsource, hfront, rfl⟩ := exists_wholeLines_of_le hle
    obtain ⟨piece, rest, rfl, hpiece, hrest⟩ := exists_line_append text
    refine ⟨piece, ?_, ?_⟩
    · rw [hsource, Nat.add_sub_cancel, hfront.getElem?_splitOn hpiece hrest]
    · rw [← String.ofList_toList (s := source), hsource, lineText_lines hfront hpiece hrest]
      rfl
  text_past_end line hlt := by
    have hnone : (lineStarts source)[line - 1]? = none :=
      Array.getElem?_eq_none (Nat.le_sub_one_of_lt hlt)
    simp only [lineText, hnone, Option.bind_eq_bind, Option.bind_none, Option.getD_none,
      String.ofList_nil]

example : Location.ofOffset? "é\r\n\nx" 5 = some ⟨3, 1⟩ ∧ lineText "é\r\n\nx" 1 = "é" := by
  decide +kernel

end ScalarLang
