import Mathlib
import ScalarLang.Proofs.Lower.Tagging
import ScalarLang.Proofs.Session.Halting
import ScalarLang.Value

/-
  Running values stand for values of their types.
  A session reads what it lowers from source, so the literals of all its routines are rounded. Hence
  all code of a session makes its typed values in ways that keep to their types, and wherever a run
  of its program is, booleans are 0 or 1 and halves are halves. Then bytes are equal if and only if
  the booleans are, and singles compare as the halves that they stand for, so that comparisons need
  not round them.
-/

namespace ScalarLang

open Ir (Machine)

/-! ## What sessions lower -/

variable {s : Session} {origins : List Origin}

theorem definedOrigins_rounded {ds : List Definition} (hds : ∀ d ∈ ds, Node.AllRounded d.body) :
    ∀ o ∈ s.definedOrigins ds, Node.AllRounded o.body := by
  induction ds generalizing s with
  | nil => simp [Session.definedOrigins]
  | cons d rest ih =>
      rw [Session.definedOrigins]
      obtain ⟨hd, hrest⟩ := List.forall_mem_cons.mp hds
      split
      · exact List.forall_mem_cons.mpr ⟨hd, ih hrest⟩
      · simp

theorem entryOrigins_rounded {nodes : List Node} (h : Node.AllRounded nodes) :
    ∀ o ∈ s.entryOrigins nodes, Node.AllRounded o.body := by
  unfold Session.entryOrigins
  split
  · exact List.forall_mem_singleton.mpr h
  · simp

theorem compileOrigins_rounded (h : ∀ o ∈ origins, Node.AllRounded o.body) (source : String) :
    ∀ o ∈ s.compileOrigins source origins, Node.AllRounded o.body := by
  unfold Session.compileOrigins
  cases hparse : Fragment.parse source with
  | error errors => exact h
  | ok f =>
      obtain ⟨hdefinitions, hstatements⟩ := Fragment.parse_rounded hparse
      have hdefined : ∀ o ∈ origins.take s.program.retireEntry.size ++
          Session.definedOrigins { s with program := s.program.retireEntry } f.definitions,
          Node.AllRounded o.body :=
        List.forall_mem_append.mpr ⟨fun o ho => h o (List.mem_of_mem_take ho),
          definedOrigins_rounded hdefinitions⟩
      simp only [Session.lowerOrigins]
      split
      · exact hdefined
      · split
        · exact hdefined
        · exact List.forall_mem_append.mpr ⟨hdefined, entryOrigins_rounded hstatements⟩

theorem step_rounded {l : Ledger} (h : ∀ o ∈ l.origins, Node.AllRounded o.body)
    (c : Session.Command) : ∀ o ∈ (l.step c).origins, Node.AllRounded o.body := by
  cases c with
  | compile source => exact compileOrigins_rounded h source
  | execute entry => exact fun o ho => h o (List.mem_of_mem_take ho)
  | eval source => exact fun o ho => compileOrigins_rounded h source o (List.mem_of_mem_take ho)
  | reset => simp [Ledger.step]

theorem run_rounded (types : TypeTable) (engine : Engine) (commands : List Session.Command) :
    ∀ o ∈ ((Ledger.new types engine).run commands).origins, Node.AllRounded o.body :=
  List.foldlRecOn (motive := fun l => ∀ o ∈ l.origins, Node.AllRounded o.body) commands Ledger.step
    (by simp [Ledger.new]) fun _ h c _ => step_rounded h c

/-! ## Typed values -/

/-- The value has the type in the routine at the position. -/
def Ledger.Types (l : Ledger) (position : Nat) (tv : TypedValue) : Prop :=
  ∃ g o, l.session.program.routines[position]? = some g ∧ l.origins[position]? = some o ∧
    g.Tags o.scope o.body tv

theorem Traced.tagged {l : Ledger} (h : Traced l.session.program l.origins)
    (hround : ∀ o ∈ l.origins, Node.AllRounded o.body) {position : Nat} {f : Ir.Function}
    (hf : (l.session.program.routines.map (·.code))[position]? = some f) :
    ∃ result, (l.session.program.routines.map (·.returnType))[position]? = some result ∧
      f.Tagged (l.session.program.routines.map (·.returnType)) result (l.Types position) := by
  rw [List.getElem?_map] at hf
  obtain ⟨g, hg, rfl⟩ := Option.map_eq_some_iff.mp hf
  obtain ⟨o, ho, hscope, types, hlower⟩ := h.made position g hg
  have hreturns : o.scope.Returns (l.session.program.routines.map (·.returnType)) := by
    intro k r hr
    have hk : k < position := by
      have hlt := (List.getElem?_eq_some_iff.mp hr).1
      rw [hscope, List.length_take] at hlt
      omega
    rw [hscope, List.getElem?_take_of_lt hk] at hr
    rw [List.getElem?_map, hr]
    rfl
  have htagged := Routine.lower_tagged (h.consistent_scope hg ho) hreturns
    (hround o (List.mem_of_getElem? ho)) hlower
  have htypes : l.Types position = g.Tags o.scope o.body := by
    funext tv
    refine propext ⟨?_, fun htv => ⟨g, o, hg, ho, htv⟩⟩
    rintro ⟨g', o', hg', ho', htv⟩
    rwa [Option.some.inj (hg.symm.trans hg'), Option.some.inj (ho.symm.trans ho')]
  exact ⟨g.returnType, by rw [List.getElem?_map, hg]; rfl, htypes ▸ htagged⟩

/-! ## Comparisons -/

/-- Bytes that stand for booleans are equal if and only if these are. -/
theorem compareInts_ofBool (x y : Bool) :
    Word.compareInts .eq (.ofBool x) (.ofBool y) = some (.ofBool (x == y)) ∧
      Word.compareInts .ne (.ofBool x) (.ofBool y) = some (.ofBool (x != y)) := by
  cases x <;> cases y <;> exact ⟨rfl, rfl⟩

/-- Singles that are halves compare as these do, and rounding them makes no difference. -/
theorem compareFloats_half {x y : Binary .single} (hx : x.IsHalf) (hy : y.IsHalf) (cc : FloatCC) :
    Word.compareFloats cc (.f32 x) (.f32 y) =
        some (.ofBool (cc.holds ((x.convert : Binary .half).compare? y.convert))) ∧
      Word.compareFloats cc (.f32 x) (.f32 y) =
        Word.compareFloats cc (.f32 x.roundHalf) (.f32 y.roundHalf) := by
  simp only [Word.compareFloats]
  rw [← hx.same_half.compare?_eq hy.same_half, ← hx.same_roundHalf.compare?_eq hy.same_roundHalf]
  exact ⟨rfl, rfl⟩

/-- Running values stand for values of their types. After any commands, each routine was lowered from
    some body. Wherever a run of the program is that starts with the call of a routine, each typed
    value of each call under way has its definition in the code; if it is a boolean and it is there
    then it is 0 or 1, and if it is a half then it is a NaN, an infinity or exactly a half. So
    booleans are equal as their bytes are, and halves compare as the singles that carry them, with or
    without rounding these again. The run comes to the outcome that the engine gives, and what it
    returns there stands for a value of the routine's type, too. -/
theorem running_values_canonical (types : TypeTable) (engine : Engine)
    (commands : List Session.Command) :
    let l := (Ledger.new types engine).run commands
    let functions := l.session.program.routines.map (·.code)
    (∀ (position : Nat) (g : Routine), l.session.program.routines[position]? = some g →
      ∃ o, l.origins[position]? = some o ∧
        ∃ types, (Routine.lower o.scope types g.name g.anonymous o.body).1 = .ok g) ∧
    (∀ entry m, Machine.Reaches functions (.running (.start entry) []) m →
      ∀ a ∈ m.activations,
        (∀ tv, l.Types a.position tv →
          (∃ f b s, functions[a.position]? = some f ∧ s ∈ f.block b ∧ tv.value ∈ s.results) ∧
          ∀ w, a.frame.values tv.value = some w →
            (tv.type = .boolean → w = .i8 0 ∨ w = .i8 1) ∧
            (tv.type = .float16 → ∃ x : Binary .single, w = .f32 x ∧ x.IsHalf)) ∧
        ∀ v v' w w', a.frame.values v = some w → a.frame.values v' = some w' →
          (l.Types a.position ⟨v, .boolean⟩ → l.Types a.position ⟨v', .boolean⟩ →
            ∃ x y, Value.ofWord? .boolean w = some (.boolean x) ∧
              Value.ofWord? .boolean w' = some (.boolean y) ∧
              Word.compareInts .eq w w' = some (.ofBool (x == y)) ∧
              Word.compareInts .ne w w' = some (.ofBool (x != y))) ∧
          (l.Types a.position ⟨v, .float16⟩ → l.Types a.position ⟨v', .float16⟩ →
            ∃ x y : Binary .single, w = .f32 x ∧ w' = .f32 y ∧ ∀ cc,
              Word.compareFloats cc w w' =
                some (.ofBool (cc.holds ((x.convert : Binary .half).compare? y.convert))) ∧
              Word.compareFloats cc w w' =
                Word.compareFloats cc (.f32 x.roundHalf) (.f32 y.roundHalf))) ∧
    ∀ (entry : Nat) (g : Routine), l.session.program.routines[entry]? = some g →
      ∃ out, Ir.linkage functions l.session.program.size (Program.indexAt entry) [] = some out ∧
        Machine.Reaches functions (.running (.start entry) []) (.returning out []) ∧
        ∀ w ∈ out.results, g.returnType.Canonical w := by
  intro l functions
  have htraced : Traced l.session.program l.origins := run_traced types engine commands
  have htagged : ∀ (position : Nat) (f : Ir.Function), functions[position]? = some f →
      ∃ result, (l.session.program.routines.map (·.returnType))[position]? = some result ∧
        f.Tagged (l.session.program.routines.map (·.returnType)) result (l.Types position) :=
    fun _ _ => htraced.tagged (run_rounded types engine commands)
  refine ⟨fun position g hg => ?_, fun entry m hm a ha => ?_, fun entry g hg => ?_⟩
  · obtain ⟨o, ho, -, hlower⟩ := htraced.made position g hg
    exact ⟨o, ho, hlower⟩
  · have hcode : ∀ tv, l.Types a.position tv → ∃ f, functions[a.position]? = some f := by
      rintro tv ⟨g, o, hg, -⟩
      exact ⟨g.code, by rw [List.getElem?_map, hg]; rfl⟩
    have hcanonical : ∀ tv, l.Types a.position tv → ∀ w, a.frame.values tv.value = some w →
        tv.type.Canonical w := by
      intro tv htv
      obtain ⟨f, hf⟩ := hcode tv htv
      exact ((Machine.Reaches.sound htagged hm).activations a ha f hf).keeps tv htv
    refine ⟨fun tv htv => ⟨?_, fun w hw => ?_⟩, fun v v' w w' hw hw' => ⟨fun hv hv' => ?_,
      fun hv hv' => ?_⟩⟩
    · obtain ⟨f, hf⟩ := hcode tv htv
      obtain ⟨result, -, ht⟩ := htagged _ f hf
      obtain ⟨b, s, hs, hv, -⟩ := ht.made tv htv
      exact ⟨f, b, s, hf, hs, hv⟩
    · have hc := hcanonical tv htv w hw
      refine ⟨fun htype => ?_, fun htype => ?_⟩
      · rwa [htype] at hc
      · rwa [htype] at hc
    · obtain ⟨x, rfl⟩ := ScalarType.canonical_boolean_iff.mp (hcanonical _ hv w hw)
      obtain ⟨y, rfl⟩ := ScalarType.canonical_boolean_iff.mp (hcanonical _ hv' w' hw')
      exact ⟨x, y, by cases x <;> rfl, by cases y <;> rfl, compareInts_ofBool x y⟩
    · obtain ⟨x, rfl, hx⟩ := hcanonical _ hv w hw
      obtain ⟨y, rfl, hy⟩ := hcanonical _ hv' w' hw'
      exact ⟨x, y, rfl, rfl, compareFloats_half hx hy⟩
  · obtain ⟨out, hout, hreaches⟩ :=
      htraced.reaches_outcome (run_tidy types engine commands).names hg
    obtain ⟨position, hresults, rfl⟩ := Machine.Reaches.sound htagged hreaches
    exact ⟨out, hout, hreaches, hresults g.returnType (by rw [List.getElem?_map, hg]; rfl)⟩

/-- The state after some steps, if the machine takes so many. -/
def Ir.Machine.after? (functions : List Ir.Function) : Nat → Machine → Option Machine
  | 0, m => some m
  | count + 1, m => (m.step functions).bind (after? functions count)

theorem Ir.Machine.reaches_of_after? {functions : List Ir.Function} {count : Nat} {m m' : Machine}
    (h : m.after? functions count = some m') : Machine.Reaches functions m m' := by
  induction count generalizing m with
  | zero => exact Option.some.inj h ▸ .refl
  | succ count ih =>
      obtain ⟨next, hstep, hrest⟩ := Option.bind_eq_some_iff.mp h
      exact .head hstep (ih hrest)

/-- A definition that adds halves, and an entry point with a boolean that compares what the
    definition gives. -/
def halfCommands : List Session.Command :=
  [.compile "def third() \x7b 0.1h + 0.2h \x7d", .compile "True == (third() < 0.3h)"]

/-- The literal that code starts with, if its first statement is an operation on one. -/
def leadingLiteral? : List Node → Option Literal
  | .binary _ _ (.literal _ value) _ :: _ => some value
  | _ => none

theorem arises_leadingLiteral {p : Program} {nodes : List Node} {value : Literal}
    (h : leadingLiteral? nodes = some value) (name : String) :
    Lower.Arises p nodes (.prepared name) ⟨0, value.type⟩ := by
  unfold leadingLiteral? at h
  split at h
  · rename_i span value' rhs rest
    obtain rfl := Option.some.inj h
    have hliteral : Lower.Builds (Lower.expression p (.literal span value')) (.prepared name)
        ⟨0, value'.type⟩
        ((Ir.Builder.prepared name).emitted (.const value'.constant) [value'.constant.type]) := by
      rw [Lower.expression]
      exact ⟨.empty, _, rfl⟩
    exact .operands (.value hliteral)
  · cases h

/-- When the definition is about to return, the single that it has is a half, and the boolean of the
    entry point, which waits for it, is a 1. -/
theorem halfCommands_canonical :
    let l := (Ledger.new .empty .new).run halfCommands
    let functions := l.session.program.routines.map (·.code)
    ∃ m callee caller x, Machine.Reaches functions (.running (.start 1) []) m ∧
      m.activations = [callee, caller] ∧
      callee.position = 0 ∧ l.Types 0 ⟨4, .float16⟩ ∧ callee.frame.values 4 = some (.f32 x) ∧
      x.IsHalf ∧ (∀ cc, Word.compareFloats cc (.f32 x) (.f32 x) =
        Word.compareFloats cc (.f32 x.roundHalf) (.f32 x.roundHalf)) ∧
      caller.position = 1 ∧ l.Types 1 ⟨0, .boolean⟩ ∧ caller.frame.values 0 = some (.i8 1) := by
  intro l functions
  have hrun : ((Machine.after? functions 11 (.running (.start 1) [])).map (·.activations.map
      fun a => (a.position, (a.frame.values 4).isSome, a.frame.values 0 == some (.i8 1)))) =
        some [(0, true, false), (1, false, true)] := by decide +kernel
  have hcallee : l.session.program.routines[0]?.any (fun g => g.returnType == .float16 &&
      (g.code.block 2).any (·.inst == .ret [4])) = true := by decide +kernel
  have hcaller : (l.origins[1]?.bind (leadingLiteral? ·.body)).map (·.type) = some .boolean := by
    decide +kernel
  have hentry : l.session.program.routines[1]?.isSome = true := by decide +kernel
  obtain ⟨hlowered, hvalues, -⟩ := running_values_canonical .empty .new halfCommands
  obtain ⟨m, hm, hactivations⟩ := Option.map_eq_some_iff.mp hrun
  obtain ⟨callee, rest, hcalls, hfirst, hrest⟩ := List.map_eq_cons_iff.mp hactivations
  obtain ⟨caller, rfl, hsecond⟩ := List.map_eq_singleton_iff.mp hrest
  simp only [Prod.mk.injEq, beq_iff_eq] at hfirst hsecond
  obtain ⟨hposition, hsome, -⟩ := hfirst
  obtain ⟨hposition', -, htrue⟩ := hsecond
  -- the result of the definition
  obtain ⟨g, hg, hret⟩ := (Option.any_eq_true _ _).mp hcallee
  simp only [Bool.and_eq_true, beq_iff_eq, List.any_eq_true] at hret
  obtain ⟨htype, s, hs, hinst⟩ := hret
  obtain ⟨o, ho, -⟩ := hlowered 0 g hg
  have hhalf : l.Types 0 ⟨4, .float16⟩ :=
    ⟨g, o, hg, ho, Or.inr ⟨htype.symm, 2, s, hs, hinst⟩⟩
  -- the literal of the entry point
  obtain ⟨value, hvalue, hboolean⟩ := Option.map_eq_some_iff.mp hcaller
  obtain ⟨o', ho', hleading⟩ := Option.bind_eq_some_iff.mp hvalue
  obtain ⟨g', hg'⟩ := Option.isSome_iff_exists.mp hentry
  have hbool : l.Types 1 ⟨0, .boolean⟩ :=
    ⟨g', o', hg', ho', Or.inl (hboolean ▸ arises_leadingLiteral hleading g'.name)⟩
  have hreaches := Machine.reaches_of_after? hm
  obtain ⟨w, hw⟩ := Option.isSome_iff_exists.mp hsome
  obtain ⟨hcanonical, hcompare⟩ := hvalues 1 m hreaches callee (by simp [hcalls])
  rw [hposition] at hcanonical hcompare
  obtain ⟨x, rfl, hx⟩ := ((hcanonical _ hhalf).2 w hw).2 rfl
  obtain ⟨y, z, hy, hz, hcc⟩ := (hcompare 4 4 _ _ hw hw).2 hhalf hhalf
  cases hy
  cases hz
  exact ⟨m, callee, caller, x, hreaches, hcalls, hposition, hhalf, hw, hx, fun cc => (hcc cc).2,
    hposition', hbool, htrue⟩

end ScalarLang
