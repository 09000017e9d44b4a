import Mathlib
import ScalarLang.Probe
import ScalarLang.Proofs.Lower.Checking
import ScalarLang.Proofs.Session.Running

/-
  Expressions in a fresh session.
  A source that is one expression, which has a type and a value without any functions, is lowered
  to the only routine of a program. Executing it gives the value.
-/

namespace ScalarLang

theorem Routine.lower_of_wellTyped {p : Program} {nodes : List Node}
    (h : ∀ n ∈ nodes, WellTyped p n) (types : TypeTable) (name : String) (anonymous : Bool) :
    ∃ r, (Routine.lower p types name anonymous nodes).1 = .ok r := by
  have houtcome := Routine.lower_outcome p types name anonymous nodes
  rcases hlower : (Routine.lower p types name anonymous nodes).1 with e | r
  · rw [hlower] at houtcome
    obtain ⟨before, node, after, rfl, -, huntyped, -⟩ := houtcome
    exact absurd (h node (by simp)) huntyped
  · exact ⟨r, rfl⟩

theorem Session.eval_of_execute {s s' : Session} {engine : Engine} {source entry : String}
    {v : Value} (hcompile : s.compile source = (.ok (some entry), s'))
    (hexecute : (engine.execute s'.program entry).1 = .ok v) :
    (s.eval engine source).1 = .ok (some v) := by
  rcases hrun : s'.execute engine entry with ⟨result, s'', engine'⟩
  obtain rfl : result = .ok v := by
    have hfst : (s'.execute engine entry).1 = .ok v := hexecute
    rwa [hrun] at hfst
  simp only [Session.eval, hcompile, hrun]

/-- The routine of an entry point that a fresh session is given is the only one. -/
theorem compile_fresh {types types' : TypeTable} {source : String} {f : Fragment} {r : Routine}
    (hparse : Fragment.parse source = .ok f) (hdefinitions : f.definitions = [])
    (hstatements : f.statements ≠ [])
    (hlower : Routine.lower Program.empty.nextEntryName.2 types Program.empty.nextEntryName.1 true
      f.statements = (.ok r, types')) :
    (Session.new types).compile source =
      (.ok (some Program.empty.nextEntryName.1), ⟨types', ⟨[r], 1⟩⟩) := by
  have hadd : (Session.new types).addEntry f.statements =
      (.ok Program.empty.nextEntryName.1, ⟨types', ⟨[r], 1⟩⟩) := by
    have hlower : Routine.lower (Session.new types).program.nextEntryName.2
        (Session.new types).types (Session.new types).program.nextEntryName.1 true f.statements =
          (.ok r, types') := hlower
    simp only [Session.addEntry, hlower]
    rfl
  have hretire : { Session.new types with program := (Session.new types).program.retireEntry } =
      Session.new types := rfl
  have hfragment : (Session.new types).lowerFragment f =
      (.ok (some Program.empty.nextEntryName.1), ⟨types', ⟨[r], 1⟩⟩) := by
    unfold Session.lowerFragment
    rw [hretire, hdefinitions]
    simp only [Session.define, List.isEmpty_iff, if_neg hstatements, hadd]
  simp only [Session.compile, hparse, hfragment]

/-- A source of one expression gives the value of the expression. -/
theorem Probe.outcome_eq {source : String} {f : Fragment} {node : Node} {v : Value}
    (hparse : Fragment.parse source = .ok f) (hnodes : f.nodes = [node])
    (htyped : ∀ p, WellTyped p node) (heval : ∀ call, node.eval call = .ok v) :
    outcome source = .ok (some v) := by
  have hnone : node.definition? = none := by
    cases node with
    | function span ident params body => exact nomatch heval fun _ => .error .stuck
    | _ => rfl
  have hdefinitions : f.definitions = [] := by simp [Fragment.definitions, hnodes, hnone]
  have hstatements : f.statements = [node] := by simp [Fragment.statements, hnodes, hnone]
  let entry := Program.empty.nextEntryName.1
  let scope := Program.empty.nextEntryName.2
  have hall : ∀ n ∈ [node], WellTyped scope n := by simpa using htyped scope
  obtain ⟨r, hr⟩ := Routine.lower_of_wellTyped hall .empty entry true
  rcases hlower : Routine.lower scope .empty entry true [node] with ⟨lowered, types⟩
  obtain rfl : lowered = .ok r := by rw [← hr, hlower]
  have hcompile := compile_fresh hparse hdefinitions (by simp [hstatements]) (hstatements ▸ hlower)
  have hpending := compile_names (Or.inl .empty : Tidy (Session.new .empty).program) source
  rw [hcompile] at hpending
  have htraced : Traced ⟨[r], 1⟩ [⟨scope, [node]⟩] := Traced.empty.commit rfl hr rfl
  have hmeaning : evalCall (definitions [r] [⟨scope, [node]⟩]) entry = .ok v := by
    have hname : r.name = entry := (Routine.lower_name hr).1
    simp [definitions, evalCall, hname, Node.evalAll, heval]
  have hsymbols : (⟨[r], 1⟩ : Program).symbols.Nodup := by
    rw [hpending.symbols_nodup_iff]
    simp [Program.definedNames, (Routine.lower_name hr).2]
  have hengine : Engine.new.isLoaded = false := rfl
  obtain ⟨u, fault, hexecute, hagrees⟩ := htraced.execute_eq hsymbols hpending.contains hengine
  rw [hmeaning] at hagrees
  obtain ⟨rfl, rfl⟩ := hagrees
  exact Session.eval_of_execute hcompile hexecute

end ScalarLang
