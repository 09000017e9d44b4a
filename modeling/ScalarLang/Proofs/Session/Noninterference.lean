import Mathlib
import ScalarLang.Proofs.Session.Residue
import ScalarLang.Proofs.Session.Running
import ScalarLang.Proofs.Session.Switching

/-
  Expressions leave nothing that a later command can see.
  What an evaluated source without definitions changes is the table of types and the number of entry
  points named so far. Neither has a part in what later sources come to: a number shows in the name
  of an entry point alone, that name is in no message, and lowering does not look at it. So two
  sessions whose definitions are alike give the same, source by source.
-/

namespace ScalarLang

/-! ## Declarations that clash -/

namespace Declaration

variable {known : List Declaration} {rs : List Routine}

/-- What is refused is refused before anything that follows it. -/
theorem declareAll_append_error {e : EngineError} (h : declareAll known rs = .error e)
    (more : List Routine) : declareAll known (rs ++ more) = .error e := by
  induction rs generalizing known with
  | nil => cases h
  | cons r rest ih =>
      rcases except_bind_error h with hd | ⟨⟨id, known'⟩, hd, h⟩
      · simp only [List.cons_append, declareAll, hd, bind, Except.bind]
      · rcases except_bind_error h with h | ⟨ids, -, h⟩
        · simp only [List.cons_append, declareAll, hd, ih h, bind, Except.bind]
        · cases h

/-- A name that is declared with another signature is refused. -/
theorem declareAll_clash (hnames : (rs.map (·.name)).Nodup)
    (hsignature : ∀ d ∈ known, ∀ r ∈ rs, d.name = r.name → d.signature ≠ r.signature)
    (hclash : ∃ d ∈ known, ∃ r ∈ rs, d.name = r.name) : ∃ e, declareAll known rs = .error e := by
  induction rs generalizing known with
  | nil => simp at hclash
  | cons r rest ih =>
      rw [List.map_cons, List.nodup_cons] at hnames
      rcases hfind : known.zipIdx.find? (·.1.name == r.name) with _ | ⟨d, id⟩
      · have hfresh : ∀ d ∈ known, d.name ≠ r.name := by
          intro d hd
          obtain ⟨k, hk⟩ := List.mem_iff_getElem?.mp hd
          simpa using List.find?_eq_none.mp hfind (d, k) (List.mem_zipIdx_iff_getElem?.mpr hk)
        have hsignature' : ∀ d ∈ known ++ [⟨r.name, r.signature⟩], ∀ r' ∈ rest,
            d.name = r'.name → d.signature ≠ r'.signature := by
          intro d hd r' hr' hname
          rcases List.mem_append.mp hd with hd | hd
          · exact hsignature d hd r' (List.mem_cons_of_mem _ hr') hname
          · rw [List.mem_singleton.mp hd] at hname
            exact absurd (List.mem_map.mpr ⟨r', hr', hname.symm⟩) hnames.1
        obtain ⟨d, hd, r', hr', hname⟩ := hclash
        have hrest : r' ∈ rest :=
          (List.mem_cons.mp hr').resolve_left fun he => hfresh d hd (he ▸ hname)
        obtain ⟨e, he⟩ := ih hnames.2 hsignature' ⟨d, List.mem_append_left _ hd, r', hrest, hname⟩
        exact ⟨e, by simp only [declareAll, declare_fresh hfresh, he, bind, Except.bind]⟩
      · have hd : d ∈ known :=
          List.mem_of_getElem? (List.mem_zipIdx_iff_getElem?.mp (List.mem_of_find?_eq_some hfind))
        have hname : d.name = r.name := by simpa using List.find?_some hfind
        obtain ⟨e, he⟩ : ∃ e, declare known r = .error e := by
          simp only [declare, hfind, if_neg (hsignature d hd r List.mem_cons_self hname)]
          exact ⟨_, rfl⟩
        exact ⟨e, by simp only [declareAll, he, bind, Except.bind]⟩

end Declaration

/-! ## Entry points under two names -/

variable {p q : Program} {origins origins' : List Origin} {entry entry' : String}

theorem Routine.AllAlike.names {rs rs' : List Routine} (h : Routine.AllAlike rs rs') :
    rs'.map (·.name) = rs.map (·.name) := by
  refine List.Forall₂.rec rfl ?_ h
  rintro r r' rs rs' ⟨hname, -⟩ - ih
  rw [List.map_cons, List.map_cons, hname, ih]

/-- If a definition has the name of a built-in routine then the definitions are refused, whatever
    the entry point after them is called. -/
theorem Pending.image_error (h : Traced p origins) (hpending : Pending p entry) {rs : List Routine}
    {e : Routine} (hp : p.routines = rs ++ [e]) (hsymbols : ¬ p.symbols.Nodup) :
    ∃ err, Declaration.declareAll Declaration.intrinsics rs = .error err ∧
      Engine.image p = .error err := by
  have hiff := hpending.symbols_nodup_iff
  obtain ⟨rs₀, e₀, hsettled, hp₀, he₀, -, -⟩ := hpending
  obtain ⟨rfl, hlast⟩ := List.append_inj' (hp.symm.trans hp₀) rfl
  obtain rfl : e = e₀ := by simpa using hlast
  have hclash : ∃ d ∈ Declaration.intrinsics, ∃ r ∈ rs, d.name = r.name := by
    rw [hiff] at hsymbols
    push Not at hsymbols
    obtain ⟨name, hname, hbuiltin⟩ := hsymbols
    obtain ⟨r, hr, rfl⟩ : ∃ r ∈ rs, r.name = name := by
      obtain ⟨r, hr, rfl⟩ := List.mem_map.mp hname
      rw [List.mem_filter, hp, List.mem_append] at hr
      rcases hr with ⟨hr | hr, hnamed⟩
      · exact ⟨r, hr, rfl⟩
      · rw [List.mem_singleton.mp hr, he₀] at hnamed
        cases hnamed
    obtain ⟨i, hi⟩ := Option.ne_none_iff_exists'.mp hbuiltin
    refine ⟨⟨i.symbol, i.signature⟩, List.mem_map_of_mem (List.mem_of_find?_eq_some hi), r, hr, ?_⟩
    simpa using List.find?_some hi
  obtain ⟨err, herr⟩ := Declaration.declareAll_clash hsettled.names (fun d hd r hr _ => by
    obtain ⟨i, -, rfl⟩ := List.mem_map.mp hd
    exact h.signature_ne_intrinsic (hp ▸ List.mem_append_left _ hr) i) hclash
  refine ⟨err, herr, ?_⟩
  have hall := Declaration.declareAll_append_error herr [e]
  rw [← hp] at hall
  simp only [Engine.image, h.verify, Engine.defineAll, hall, bind, Except.bind]

/-- The entry point stands last. -/
theorem Pending.lookup (h : Pending p entry) {rs : List Routine} {e : Routine}
    (hp : p.routines = rs ++ [e]) :
    p.lookup entry = some (Program.indexAt rs.length, e) := by
  refine (Program.lookup_eq_some_iff (Tidy.names (Or.inr ⟨entry, h⟩))).mpr
    ⟨rs.length, by rw [hp, List.getElem?_concat_length], ?_, rfl⟩
  obtain ⟨rs₀, e₀, -, hp₀, -, hname, -⟩ := h
  obtain ⟨-, hlast⟩ := List.append_inj' (hp.symm.trans hp₀) rfl
  obtain rfl : e = e₀ := by simpa using hlast
  exact hname

/-- Entry points that are alike, after definitions that are alike, are executed alike. -/
theorem EntryAlike.execute (h : EntryAlike p q entry entry') (hp : Traced p origins)
    (hq : Traced q origins') (hpending : Pending p entry) (hpending' : Pending q entry')
    (engine : Engine) : (engine.execute q entry').1 = (engine.execute p entry).1 := by
  obtain ⟨rs, rs', e, e', hrs, he, hpr, hqr, -, -, hanonymous⟩ := h
  rcases hloaded : engine.isLoaded with _ | _
  case true => simp only [Engine.execute, Engine.load, hloaded, if_true]
  have hnames : q.definedNames = p.definedNames := by
    have hfilter : ∀ {rs rs' : List Routine}, Routine.AllAlike rs rs' →
        (rs'.filter (!·.anonymous)).map (·.name) = (rs.filter (!·.anonymous)).map (·.name) := by
      intro rs rs' h
      refine List.Forall₂.rec rfl ?_ h
      rintro r r' rs rs' ⟨hname, hr⟩ - ih
      rw [List.filter_cons, List.filter_cons, hr.anonymous]
      split
      · rw [List.map_cons, List.map_cons, hname, ih]
      · exact ih
    simp only [Program.definedNames, hpr, hqr, List.filter_append, List.map_append, hfilter hrs]
    simp [hanonymous, he.anonymous]
  have hsymbols_iff : q.symbols.Nodup ↔ p.symbols.Nodup := by
    rw [hpending.symbols_nodup_iff, hpending'.symbols_nodup_iff, hnames]
  by_cases hsymbols : p.symbols.Nodup
  · have hsymbols' := hsymbols_iff.mpr hsymbols
    have hl := hpending.lookup hpr
    have hl' := hpending'.lookup hqr
    rw [← hrs.length_eq] at hl'
    obtain ⟨v, fault, hrun, -⟩ := hp.run?_entry hl
    have hlinkage : Ir.linkage (q.routines.map (·.code)) q.routines.length =
        Ir.linkage (p.routines.map (·.code)) p.routines.length := by
      have hlength : q.routines.length = p.routines.length := by
        rw [hpr, hqr, List.length_append, List.length_append, hrs.length_eq]
        rfl
      rw [hlength]
      refine linkage_congr ?_ _
      rw [List.forall₂_map_left_iff, List.forall₂_map_right_iff, hpr, hqr]
      exact List.rel_append (hrs.imp fun _ _ hr => hr.2.run) (.cons he.run .nil)
    have hrun' : Image.run? ⟨q.routines, q.table⟩
        ⟨Program.indexAt rs.length, e'.returnType.representation⟩ = some (v, fault) := by
      rw [← hrun, he.returnType]
      simp only [Image.run?, hlinkage]
    have htable : p.table.lookup entry =
        some ⟨Program.indexAt rs.length, e.returnType.representation⟩ := by
      rw [Program.lookup_table hsymbols, hl]
      rfl
    have htable' : q.table.lookup entry' =
        some ⟨Program.indexAt rs.length, e'.returnType.representation⟩ := by
      rw [Program.lookup_table hsymbols', hl']
      rfl
    rw [Engine.execute_of_image hloaded (hp.image_eq hsymbols),
      Engine.execute_of_image hloaded (hq.image_eq hsymbols')]
    simp only [Engine.call, htable, htable', hrun, hrun']
    cases fault <;> rfl
  · obtain ⟨err, herr, himage⟩ := hpending.image_error hp hpr hsymbols
    obtain ⟨err', herr', himage'⟩ :=
      hpending'.image_error hq hqr (fun hs => hsymbols (hsymbols_iff.mp hs))
    rw [Engine.declareAll_congr hrs, herr] at herr'
    obtain rfl := Except.error.inj herr'
    rw [Engine.execute_of_error hloaded himage, Engine.execute_of_error hloaded himage']

/-! ## Two runs -/

/-- The definitions of the sessions are alike; the types they have seen, the entry points they have
    named and one that was never executed do not count. -/
structure Session.Indistinguishable (s s' : Session) : Prop where
  traced : ∃ origins, Traced s.program origins
  traced' : ∃ origins, Traced s'.program origins
  tidy : Tidy s.program
  tidy' : Tidy s'.program
  alike : s.program.retireEntry.Alike s'.program.retireEntry

/-- What evaluating sources gives, one after the other: the value or the error of each, and the
    functions that are defined after it. -/
def Session.transcript (s : Session) (engine : Engine) :
    List String → List (Except Diagnostic (Option Value) × List String)
  | [] => []
  | source :: rest =>
    let (result, s', engine') := s.eval engine source
    (result, s'.definedFunctions) :: s'.transcript engine' rest

theorem Program.Alike.retireEntry (h : p.Alike q) : p.retireEntry.Alike q.retireEntry := by
  have hanonymous : q.routines.map (·.anonymous) = p.routines.map (·.anonymous) := by
    refine List.Forall₂.rec rfl ?_ h.routines
    rintro r r' rs rs' ⟨-, hr⟩ - ih
    rw [List.map_cons, List.map_cons, hr.anonymous, ih]
  have hpending (p : Program) : p.pendingEntry?.isSome =
      ((p.routines.map (·.anonymous)).getLast? == some true) := by
    rw [Program.pendingEntry?, List.getLast?_map]
    rcases p.routines.getLast? with _ | r
    · rfl
    · cases hr : r.anonymous <;> simp [Option.filter, hr]
  have hsame : q.pendingEntry?.isSome = p.pendingEntry?.isSome := by
    rw [hpending, hpending, hanonymous]
  unfold Program.retireEntry
  rw [hsame]
  split
  · refine ⟨?_⟩
    simp only [List.dropLast_eq_take, ← h.routines.length_eq]
    exact List.forall₂_take _ h.routines
  · exact h

theorem EntryAlike.retireEntry (h : EntryAlike p q entry entry') :
    p.retireEntry.Alike q.retireEntry := by
  obtain ⟨rs, rs', e, e', hrs, he, hp, hq, -, -, hanonymous⟩ := h
  refine ⟨?_⟩
  rw [Program.retireEntry_concat hp hanonymous,
    Program.retireEntry_concat hq (he.anonymous.trans hanonymous)]
  exact hrs

/-- An evaluation that runs an entry point gives what comes of the run. -/
theorem Session.eval_entry {s t : Session} {source : String}
    (h : s.compile source = (.ok (some entry), t)) (engine : Engine) :
    (s.eval engine source).1 =
        ((engine.execute t.program entry).1.map some).mapError Diagnostic.engine ∧
      (s.eval engine source).2.1 = { t with program := t.program.retireEntry } := by
  simp only [Session.eval, h, Session.execute]
  rcases engine.execute t.program entry with ⟨e | v, engine'⟩ <;> exact ⟨rfl, rfl⟩

theorem Session.eval_engine (s : Session) (engine : Engine) (source : String) :
    (s.eval engine source).2.2 = engine := by
  rcases s.eval_effect engine source with ⟨-, h⟩ | ⟨entry, -, h⟩
  · exact h
  · rw [h, Engine.execute_engine]

namespace Session.Indistinguishable

variable {s s' : Session}

theorem definedFunctions (h : s.Indistinguishable s') :
    s'.definedFunctions = s.definedFunctions := by
  have hnamed (p : Program) (hp : Tidy p) :
      p.definedNames = p.retireEntry.routines.map (·.name) := by
    have hsettled := hp.retireEntry.named_eq
    rw [Program.retireEntry_named] at hsettled
    rw [Program.definedNames, ← hsettled]
    rfl
  simp only [Session.definedFunctions, hnamed _ h.tidy, hnamed _ h.tidy', h.alike.routines.names]

/-- An evaluation comes to the same in both sessions. -/
theorem eval_eq (h : s.Indistinguishable s') (engine : Engine) (source : String) :
    (s'.eval engine source).1 = (s.eval engine source).1 ∧
      (s.eval engine source).2.1.program.retireEntry.Alike
        (s'.eval engine source).2.1.program.retireEntry := by
  obtain ⟨origins, htraced⟩ := h.traced
  obtain ⟨origins', htraced'⟩ := h.traced'
  rcases hparse : Fragment.parse source with errors | f
  · have hcompile (s : Session) : s.compile source = (.error (.malformed errors), s) := by
      simp only [Session.compile, hparse]
    simp only [Session.eval, hcompile, true_and]
    exact h.alike
  have hcompiled := compile_traced htraced source
  have hcompiled' := compile_traced htraced' source
  have hnames := compile_names h.tidy source
  have hnames' := compile_names h.tidy' source
  have hleft := lowerFragment_switched h.alike
    (show f.Switched f from Node.SwitchedAll.refl f.nodes)
  have hcompile := Session.compile_eq (s := s) hparse
  have hcompile' := Session.compile_eq (s := s') hparse
  generalize s.lowerFragment f = left at hleft hcompile
  generalize s'.lowerFragment f = left' at hleft hcompile'
  cases hleft with
  | @failed e t t' halike =>
      have hc : s.compile source = (.error (.lowering e), t) := hcompile
      have hc' : s'.compile source = (.error (.lowering e), t') := hcompile'
      simp only [Session.eval, hc, hc', true_and]
      exact halike.retireEntry
  | @defined t t' halike =>
      have hc : s.compile source = (.ok none, t) := hcompile
      have hc' : s'.compile source = (.ok none, t') := hcompile'
      simp only [Session.eval, hc, hc', true_and]
      exact halike.retireEntry
  | @entered entry entry' t t' halike =>
      have hc : s.compile source = (.ok (some entry), t) := hcompile
      have hc' : s'.compile source = (.ok (some entry'), t') := hcompile'
      rw [hc] at hcompiled hnames
      rw [hc'] at hcompiled' hnames'
      obtain ⟨hresult, hleft⟩ := Session.eval_entry hc engine
      obtain ⟨hresult', hleft'⟩ := Session.eval_entry hc' engine
      rw [hresult, hresult', hleft, hleft',
        halike.execute hcompiled hcompiled' hnames hnames' engine]
      exact ⟨rfl, halike.retireEntry.retireEntry⟩

theorem eval (h : s.Indistinguishable s') (engine : Engine) (source : String) :
    (s.eval engine source).2.1.Indistinguishable (s'.eval engine source).2.1 := by
  obtain ⟨origins, htraced⟩ := h.traced
  obtain ⟨origins', htraced'⟩ := h.traced'
  exact ⟨⟨_, (compile_traced htraced source).take (s.eval_routines engine source)⟩,
    ⟨_, (compile_traced htraced' source).take (s'.eval_routines engine source)⟩,
    eval_tidy h.tidy engine source, eval_tidy h.tidy' engine source, (h.eval_eq engine source).2⟩

/-- No sequence of sources tells the sessions apart. -/
theorem transcript (h : s.Indistinguishable s') (engine : Engine) (sources : List String) :
    s'.transcript engine sources = s.transcript engine sources := by
  induction sources generalizing s s' with
  | nil => rfl
  | cons source rest ih =>
      have hnext := h.eval engine source
      simp only [Session.transcript, (h.eval_eq engine source).1, hnext.definedFunctions,
        Session.eval_engine, ih hnext]

end Session.Indistinguishable

/-! ## Expressions -/

/-- Evaluating a source without definitions leaves a session that cannot be told apart. -/
theorem Session.eval_indistinguishable {s : Session} {origins : List Origin}
    (htraced : Traced s.program origins) (htidy : Tidy s.program) (engine : Engine) {source : String}
    (hsource : ∀ f, Fragment.parse source = .ok f → f.definitions = []) :
    s.Indistinguishable (s.eval engine source).2.1 := by
  refine ⟨⟨_, htraced⟩, ⟨_, (compile_traced htraced source).take (s.eval_routines engine source)⟩,
    htidy, eval_tidy htidy engine source, ?_⟩
  have hsame (p : Program) (hp : p.routines = s.program.retireEntry.routines) :
      s.program.retireEntry.Alike p.retireEntry := by
    have hsettled := htidy.retireEntry
    rw [← hp] at hsettled
    refine ⟨?_⟩
    rw [hsettled.retireEntry, hp]
    exact (Program.Alike.refl _).routines
  rcases hparse : Fragment.parse source with errors | f
  · have hcompile : s.compile source = (.error (.malformed errors), s) := by
      simp only [Session.compile, hparse]
    simp only [Session.eval, hcompile]
    exact .refl _
  have hleaves := lowerFragment_leaves s f
  have hcompile := Session.compile_eq (s := s) hparse
  rw [hsource f hparse] at hleaves
  rcases hl : s.lowerFragment f with ⟨e | _ | entry, t⟩ <;> rw [hl] at hleaves hcompile
  · obtain ⟨before, hbefore, hfails⟩ := hleaves
    obtain rfl : before = [] := by
      rcases hfails with ⟨d, after, hsplit, -⟩ | ⟨hall, -⟩
      · rw [hsource f hparse] at hsplit
        simp at hsplit
      · rw [← hall, hsource f hparse]
    have hc : s.compile source = (.error (.lowering e), t) := hcompile
    simp only [Session.eval, hc]
    exact hsame _ (by rw [hbefore.eq_of_nil])
  · have hc : s.compile source = (.ok none, t) := hcompile
    simp only [Session.eval, hc]
    exact hsame _ (by rw [hleaves.eq_of_nil])
  · obtain ⟨q, e, hq, hroutines, hanonymous⟩ := hleaves
    have hc : s.compile source = (.ok (some entry), t) := hcompile
    rw [(Session.eval_entry hc engine).2]
    exact hsame _ (by rw [Program.retireEntry_concat hroutines hanonymous, hq.eq_of_nil])

/-- A source that cannot be read, one that cannot be lowered, one that faults and one that gives a
    value. -/
def expressionSources : List String := ["1 +", "1 + 1.0", "f() / 0", "when f() > 1 f() else 2"]

end ScalarLang
