import Mathlib
import ScalarLang.Proofs.Engine.Loading
import ScalarLang.Proofs.Ir.SharedFlag
import ScalarLang.Session

/-
  What an engine keeps.
  A host has an engine and a thread. The program that it loads goes on changing, and faults go to a
  flag of the thread, which is cleared before a call and taken after it, and which other code may
  leave as it likes. A manifest has none of this: it only notes which program was loaded, as it was
  then. Still the manifest foretells every reply of the host, whatever operations are asked for in
  whatever order. So a call depends on the loaded program and the entry point alone.
-/

namespace ScalarLang

/-- Runs the function of an entry on a thread with the flag, and reads its result and the flag. -/
def Image.runShared? (image : Image) (e : Entry) (flag : Bool) : Option (Value × Bool) := do
  let out ← Ir.linkageShared (image.routines.map (·.code)) image.routines.length e.id [] flag
  let [word] := out.results | none
  return (← Value.ofWord? e.representation word, out.faulted)

/-- What can be asked of a host. The program under translation may change at any time, and so may
    the flag. -/
inductive Operation where
  | load
  | call (entry : String)
  | unload
  | execute (entry : String)
  | translate (program : Program)
  | disturb (flag : Bool)

inductive Reply where
  | loaded (result : Except EngineError Unit)
  | called (result : Except EngineError Value)
  | done
deriving DecidableEq

/-- Answers one operation after the other. -/
def Reply.all {σ : Type} (step : σ → Operation → Reply × σ) : σ → List Operation → List Reply × σ
  | s, [] => ([], s)
  | s, operation :: rest =>
    let (reply, s) := step s operation
    let (replies, s) := all step s rest
    (reply :: replies, s)

/-! ## Hosts -/

/-- An engine, the program under translation, and the flag of the thread. -/
structure Host where
  engine : Engine
  program : Program
  flag : Bool

namespace Host

def clearFault (h : Host) : Host := { h with flag := false }

/-- Reads the flag and clears it. -/
def takeFault (h : Host) : Bool × Host := (h.flag, { h with flag := false })

def load (h : Host) : Except EngineError Unit × Host :=
  let (result, engine) := h.engine.load h.program
  (result, { h with engine })

def unload (h : Host) : Host := { h with engine := h.engine.unload }

def call (h : Host) (entry : String) : Except EngineError Value × Host :=
  match h.engine.resident with
  | none => (.error (.missingEntryPoint entry), h)
  | some image =>
    match image.entries.lookup entry with
    | none => (.error (.missingEntryPoint entry), h)
    | some target =>
      let h := h.clearFault
      match image.runShared? target h.flag with
      | none => (.error (.backend ("no outcome of " ++ entry)), h)
      | some (value, flag) =>
        let (fault, h) := { h with flag }.takeFault
        (if fault then .error .divisionByZero else .ok value, h)

/-- Loads the program, calls and unloads; if the program does not load then that is all. -/
def execute (h : Host) (entry : String) : Except EngineError Value × Host :=
  match h.load with
  | (.error e, h) => (.error e, h)
  | (.ok (), h) =>
    let (result, h) := h.call entry
    (result, h.unload)

def step (h : Host) : Operation → Reply × Host
  | .load => let (result, h) := h.load; (.loaded result, h)
  | .call entry => let (result, h) := h.call entry; (.called result, h)
  | .unload => (.done, h.unload)
  | .execute entry => let (result, h) := h.execute entry; (.called result, h)
  | .translate program => (.done, { h with program })
  | .disturb flag => (.done, { h with flag })

end Host

/-! ## Manifests -/

/-- The program that is loaded, as it was when it was loaded, and the program under translation. -/
structure Manifest where
  loaded : Option Program
  program : Program

namespace Manifest

/-- The memory that the loaded program takes. -/
def resident (m : Manifest) : Option Image := m.loaded.bind fun p => (Engine.image p).toOption

/-- A program loads if nothing else is loaded and it can go into memory. -/
def load (m : Manifest) : Except EngineError Unit :=
  match m.loaded with
  | some _ => .error .alreadyLoaded
  | none => (Engine.image m.program).map fun _ => ()

/-- A call does what executing the loaded program does in an engine of its own. -/
def call (m : Manifest) (entry : String) : Except EngineError Value :=
  match m.loaded with
  | some p => (Engine.new.execute p entry).1
  | none => .error (.missingEntryPoint entry)

def execute (m : Manifest) (entry : String) : Except EngineError Value :=
  match m.loaded with
  | some _ => .error .alreadyLoaded
  | none => (Engine.new.execute m.program entry).1

def step (m : Manifest) : Operation → Reply × Manifest
  | .load =>
    (.loaded m.load, match m.load with
      | .ok () => { m with loaded := some m.program }
      | .error _ => m)
  | .call entry => (.called (m.call entry), m)
  | .unload => (.done, { m with loaded := none })
  | .execute entry => (.called (m.execute entry), m)
  | .translate program => (.done, { m with program })
  | .disturb _ => (.done, m)

end Manifest

/-! ## Calls -/

/-- From a flag that is not set, sharing makes no difference. -/
theorem Image.runShared?_false (image : Image) (e : Entry) :
    image.runShared? e false = image.run? e := by
  have hraise : (fun out : Ir.Outcome => out.raise false) = id := rfl
  unfold runShared? run?
  rewrite [Ir.linkageShared_shares, hraise, Option.map_id]
  rfl

namespace Host

/-- A call gives what the engine gives, and touches the flag only. -/
theorem call_eq (h : Host) (entry : String) :
    (h.call entry).1 = h.engine.call entry ∧ (h.call entry).2.engine = h.engine ∧
      (h.call entry).2.program = h.program := by
  unfold call Engine.call
  cases h.engine.resident with
  | none => exact ⟨rfl, rfl, rfl⟩
  | some image =>
      dsimp only
      cases image.entries.lookup entry with
      | none => exact ⟨rfl, rfl, rfl⟩
      | some target =>
          have hrun : image.runShared? target h.clearFault.flag = image.run? target :=
            image.runShared?_false target
          dsimp only
          rw [hrun]
          rcases image.run? target with _ | ⟨value, _ | _⟩ <;> exact ⟨rfl, rfl, rfl⟩

theorem execute_eq (h : Host) (entry : String) :
    (h.execute entry).1 = (h.engine.execute h.program entry).1 ∧
      (h.execute entry).2.engine = (h.engine.execute h.program entry).2 ∧
      (h.execute entry).2.program = h.program := by
  unfold execute Engine.execute load
  rcases h.engine.load h.program with ⟨_ | _, engine⟩
  · exact ⟨rfl, rfl, rfl⟩
  · obtain ⟨hresult, hengine, hprogram⟩ := call_eq { h with engine } entry
    exact ⟨hresult, congrArg Engine.unload hengine, hprogram⟩

theorem execute_engine (h : Host) (entry : String) : (h.execute entry).2.engine = h.engine := by
  rw [(h.execute_eq entry).2.1, Engine.execute_engine]

/-- A load that fails changes nothing. -/
theorem load_error {h : Host} {e : EngineError} (he : h.load.1 = .error e) : h.load.2 = h := by
  have hload : (h.engine.load h.program).1 = .error e := he
  have hengine : (h.engine.load h.program).2 = h.engine := by
    unfold Engine.load at hload ⊢
    split
    · rfl
    · cases himage : Engine.image h.program with
      | error e => rfl
      | ok image =>
          rw [if_neg ‹_›, himage] at hload
          cases hload
  calc h.load.2 = { h with engine := (h.engine.load h.program).2 } := rfl
    _ = h := by rw [hengine]

end Host

/-! ## What a manifest says of a host -/

/-- A manifest describes a host where the program that it notes is in memory. The flag does not
    matter. -/
inductive Manifest.Describes : Manifest → Host → Prop
  | unloaded (program : Program) (flag : Bool) :
      Describes ⟨none, program⟩ ⟨.new, program, flag⟩
  | loaded (program : Program) (flag : Bool) {p : Program} {image : Image}
      (himage : Engine.image p = .ok image) :
      Describes ⟨some p, program⟩ ⟨⟨some image⟩, program, flag⟩

namespace Manifest.Describes

variable {m : Manifest} {h h' : Host}

theorem of_eq (d : m.Describes h) (hengine : h'.engine = h.engine)
    (hprogram : h'.program = h.program) : m.Describes h' := by
  have hflag : m.Describes { h with flag := h'.flag } := by
    cases d with
    | unloaded => exact .unloaded _ _
    | loaded _ _ himage => exact .loaded _ _ himage
  rw [← hengine, ← hprogram] at hflag
  exact hflag

theorem resident (d : m.Describes h) : h.engine.resident = m.resident := by
  cases d with
  | unloaded => rfl
  | loaded _ _ himage =>
      rw [Manifest.resident, Option.bind_some, himage]
      rfl

theorem call (d : m.Describes h) (entry : String) : h.engine.call entry = m.call entry := by
  cases d with
  | unloaded => rfl
  | loaded _ _ himage =>
      have hnew : Engine.new.isLoaded = false := rfl
      exact congrArg Prod.fst (Engine.execute_of_image hnew himage entry).symm

theorem execute (d : m.Describes h) (entry : String) :
    (h.engine.execute h.program entry).1 = m.execute entry := by
  cases d <;> rfl

theorem load (d : m.Describes h) :
    h.load.1 = m.load ∧ (m.step .load).2.Describes h.load.2 := by
  cases d with
  | loaded program flag himage => exact ⟨rfl, .loaded program flag himage⟩
  | unloaded program flag =>
      unfold Host.load Manifest.step Manifest.load Engine.load
      cases himage : Engine.image program with
      | error e => exact ⟨rfl, .unloaded program flag⟩
      | ok image => exact ⟨rfl, .loaded program flag himage⟩

/-- The manifest foretells the reply to an operation, and describes the host after it. -/
theorem step (d : m.Describes h) (operation : Operation) :
    (h.step operation).1 = (m.step operation).1 ∧
      (m.step operation).2.Describes (h.step operation).2 := by
  cases operation with
  | load => exact ⟨congrArg Reply.loaded d.load.1, d.load.2⟩
  | call entry =>
      obtain ⟨hresult, hengine, hprogram⟩ := h.call_eq entry
      exact ⟨congrArg Reply.called (hresult.trans (d.call entry)), d.of_eq hengine hprogram⟩
  | execute entry =>
      obtain ⟨hresult, -, hprogram⟩ := h.execute_eq entry
      exact ⟨congrArg Reply.called (hresult.trans (d.execute entry)),
        d.of_eq (h.execute_engine entry) hprogram⟩
  | unload => exact ⟨rfl, by cases d <;> exact .unloaded _ _⟩
  | translate program =>
      refine ⟨rfl, ?_⟩
      cases d with
      | unloaded _ flag => exact .unloaded program flag
      | loaded _ flag himage => exact .loaded program flag himage
  | disturb flag => exact ⟨rfl, d.of_eq rfl rfl⟩

theorem all (d : m.Describes h) (operations : List Operation) :
    (Reply.all Host.step h operations).1 = (Reply.all Manifest.step m operations).1 ∧
      (Reply.all Manifest.step m operations).2.Describes (Reply.all Host.step h operations).2 := by
  induction operations generalizing m h with
  | nil => exact ⟨rfl, d⟩
  | cons operation rest ih =>
      obtain ⟨hreply, hstep⟩ := d.step operation
      obtain ⟨hreplies, hrest⟩ := ih hstep
      exact ⟨congrArg₂ List.cons hreply hreplies, hrest⟩

end Manifest.Describes

/-- Whatever was asked of a host with a new engine, the manifest foretold the replies and says what
    is in memory. From then on, a load that fails leaves the host as it was, executing leaves the
    engine as it was, and a call gives what the engine gives, which is what the program that was
    loaded gives in an engine of its own. -/
theorem engine_keeps_loaded_program_only (program : Program) (flag : Bool)
    (operations : List Operation) :
    let manifest := Reply.all Manifest.step ⟨none, program⟩ operations
    let host := Reply.all Host.step ⟨.new, program, flag⟩ operations
    host.1 = manifest.1 ∧
    host.2.engine.resident = manifest.2.resident ∧
    (∀ e, host.2.load.1 = .error e → host.2.load.2 = host.2) ∧
    ∀ entry,
      (host.2.execute entry).2.engine = host.2.engine ∧
      (host.2.execute entry).1 = (host.2.engine.execute host.2.program entry).1 ∧
      (host.2.call entry).2.engine = host.2.engine ∧
      (host.2.call entry).1 = host.2.engine.call entry ∧
      host.2.engine.call entry = match manifest.2.loaded with
        | some p => (Engine.new.execute p entry).1
        | none => .error (.missingEntryPoint entry) := by
  intro manifest host
  obtain ⟨hreplies, d⟩ := (Manifest.Describes.unloaded program flag).all operations
  refine ⟨hreplies, d.resident, fun e he => Host.load_error he, fun entry => ?_⟩
  obtain ⟨hresult, hengine, -⟩ := host.2.call_eq entry
  exact ⟨host.2.execute_engine entry, (host.2.execute_eq entry).1, hengine, hresult, d.call entry⟩

/-- A fault, a flag left set and a program taken away do not show in the calls that follow. -/
theorem loaded_program_outlives_fault :
    let program := ((Session.new .empty).compile "def f() \x7b 7 \x7d; 1 / 0").2.program
    let operations := [.load, .call "anon$1", .disturb true, .translate .empty, .call "f",
      .execute "f", .call "g"]
    let host := Reply.all Host.step ⟨.new, program, true⟩ operations
    host.1 = [.loaded (.ok ()), .called (.error .divisionByZero), .done, .done,
      .called (.ok (.signed 7)), .called (.error .alreadyLoaded),
      .called (.error (.missingEntryPoint "g"))] ∧
    host.1 = (Reply.all Manifest.step ⟨none, program⟩ operations).1 ∧
    host.2.load.1 = .error .alreadyLoaded ∧ host.2.load.2 = host.2 := by
  intro program operations host
  obtain ⟨hreplies, -, hload, -⟩ := engine_keeps_loaded_program_only program true operations
  have hfails : host.2.load.1 = .error .alreadyLoaded := by decide +kernel
  exact ⟨by decide +kernel, hreplies, hfails, hload _ hfails⟩

end ScalarLang
