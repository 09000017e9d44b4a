import Mathlib
import ScalarLang.Proofs.Engine.Loading
import ScalarLang.Proofs.Ir.Machine
import ScalarLang.Proofs.Lower.Interchange

/-
  Programs with routines that are alike, one by one and under the same names.
  Whatever is lowered in one of them finds routines of the same kind in the other. The engine takes
  both into memory or neither, and calls come to the same: a routine is linked to the routines
  before it, which come to the same already. This is so over any meaning of the functions that no
  code is known of. Only what a failed check reports may differ, since it shows the code.
-/

namespace ScalarLang

/-! ## Linking -/

namespace Ir.Linkage

/-- The function at the position runs by its code and sees what was linked before; it takes no
    arguments. -/
def define (link : Linkage) (position : Nat) (f : Function) : Linkage := fun index args =>
  if index = firstRoutineIndex + position then if args.isEmpty then f.run link else none
  else link index args

/-- The functions at the positions from `first` on, over any meaning of what is built in and of the
    functions before them. -/
def extend (link : Linkage) (first : Nat) : List Function → Linkage
  | [] => link
  | f :: rest => (link.define first f).extend (first + 1) rest

theorem extend_append (link : Linkage) (first : Nat) (fs gs : List Function) :
    link.extend first (fs ++ gs) = (link.extend first fs).extend (first + fs.length) gs := by
  induction fs generalizing link first with
  | nil => rfl
  | cons f rest ih =>
      rw [List.cons_append, extend, ih, extend, List.length_cons, Nat.succ_add_eq_add_succ]

/-- Functions that come to the same outcome, one by one, come to the same when they are linked to
    each other. -/
theorem extend_congr {fs gs : List Function}
    (h : List.Forall₂ (fun f g => ∀ link, g.run link = f.run link) fs gs) (link : Linkage)
    (first : Nat) : link.extend first gs = link.extend first fs := by
  induction h generalizing link first with
  | nil => rfl
  | @cons f g rest rest' hrun _ ih =>
      have hdefine : link.define first g = link.define first f := by
        unfold define
        rw [hrun]
      rw [extend, extend, hdefine, ih]

end Ir.Linkage

/-- The linkage of a program extends what is built in. -/
theorem linkage_eq_extend (functions : List Ir.Function) (count : Nat) :
    Ir.linkage functions count =
      Ir.Linkage.extend (Ir.linkage [] 0) 0 (functions.take count) := by
  induction count with
  | zero => rfl
  | succ count ih =>
      rcases Nat.lt_or_ge count functions.length with hlt | hge
      · have hlength : (functions.take count).length = count := by simp [Nat.le_of_lt hlt]
        rw [List.take_succ_eq_append_getElem hlt, Ir.Linkage.extend_append, ← ih, hlength,
          Nat.zero_add]
        funext index args
        simp only [Ir.linkage, Ir.Linkage.extend, Ir.Linkage.define,
          List.getElem?_eq_getElem hlt, Option.bind_some]
      · -- there is no function at the position
        rw [List.take_of_length_le hge] at ih
        rw [List.take_of_length_le (Nat.le_succ_of_le hge), ← ih]
        funext index args
        simp only [Ir.linkage, List.getElem?_eq_none hge, Option.bind_none, ite_self]
        split
        · rename_i hindex
          rcases hout : Ir.linkage functions count index args with _ | out
          · rfl
          · rcases Ir.Machine.linkage_eq_some hout with ⟨hlt, -⟩ | ⟨k, hk, hk', -⟩ <;> omega
        · rfl

theorem linkage_congr {fs gs : List Ir.Function}
    (h : List.Forall₂ (fun f g => ∀ link, g.run link = f.run link) fs gs) (count : Nat) :
    Ir.linkage gs count = Ir.linkage fs count := by
  rw [linkage_eq_extend gs, linkage_eq_extend fs,
    Ir.Linkage.extend_congr (List.forall₂_take count h)]

/-- Routines with the same names in the same order that are alike. -/
def Routine.AllAlike (rs rs' : List Routine) : Prop :=
  List.Forall₂ (fun r r' => r'.name = r.name ∧ r.Alike r') rs rs'

/-- The programs have such routines. How many entry points they have named does not count. -/
structure Program.Alike (p q : Program) : Prop where
  routines : Routine.AllAlike p.routines q.routines

namespace Program.Alike

variable {p q : Program}

theorem refl (p : Program) : p.Alike p :=
  ⟨List.forall₂_same.mpr fun r _ => ⟨rfl, .refl r⟩⟩

theorem commit (h : p.Alike q) {r r' : Routine} (hname : r'.name = r.name) (hr : r.Alike r') :
    (p.commit r).Alike (q.commit r') :=
  ⟨List.rel_append h.routines (.cons ⟨hname, hr⟩ .nil)⟩

/-- Names stand for routines of the same kind. -/
theorem resembles (h : p.Alike q) : p.Resembles q := by
  intro name
  have hindex : q.routines.findIdx? (·.name == name) = p.routines.findIdx? (·.name == name) := by
    refine List.Forall₂.rec rfl ?_ h.routines
    rintro r r' rs rs' ⟨hname, -⟩ - ih
    rw [List.findIdx?_cons, List.findIdx?_cons, hname, ih]
  unfold Program.lookup
  rw [hindex]
  cases p.routines.findIdx? (·.name == name) with
  | none => exact .none
  | some k =>
      rcases Nat.lt_or_ge k p.routines.length with hlt | hge
      · have hlt' : k < q.routines.length := h.routines.length_eq ▸ hlt
        have hr := (h.routines.get hlt hlt').2
        simp only [Option.bind_eq_bind, Option.bind_some, List.getElem?_eq_getElem hlt,
          List.getElem?_eq_getElem hlt']
        exact .some ⟨rfl, hr.signature, hr.returnType⟩
      · simp only [Option.bind_eq_bind, Option.bind_some, List.getElem?_eq_none hge,
          List.getElem?_eq_none (h.routines.length_eq ▸ hge)]
        exact .none

/-- Whatever is linked, the code at each position comes to the same. -/
theorem run (h : p.Alike q) : List.Forall₂ (fun f g => ∀ link, Ir.Function.run link g = f.run link)
    (p.routines.map (·.code)) (q.routines.map (·.code)) := by
  rw [List.forall₂_map_left_iff, List.forall₂_map_right_iff]
  exact h.routines.imp fun _ _ hr => hr.2.run

theorem linkage (h : p.Alike q) (count : Nat) :
    Ir.linkage (q.routines.map (·.code)) count = Ir.linkage (p.routines.map (·.code)) count :=
  linkage_congr h.run count

end Program.Alike

/-! ## Loading -/

namespace Engine

variable {p q : Program}

theorem declareAll_congr {rs rs' : List Routine} (h : Routine.AllAlike rs rs')
    (known : List Declaration) :
    Declaration.declareAll known rs' = Declaration.declareAll known rs := by
  induction h generalizing known with
  | nil => rfl
  | @cons r r' rs rs' hr _ ih =>
      have hdeclare : Declaration.declare known r' = Declaration.declare known r := by
        simp only [Declaration.declare, hr.1, hr.2.signature]
      simp only [Declaration.declareAll, hdeclare, ih]

theorem define_congr {rs rs' : List Routine} (h : Routine.AllAlike rs rs') (ids defined : List Nat)
    (entries : List (String × Entry)) :
    define defined entries (rs'.zip ids) = define defined entries (rs.zip ids) := by
  induction h generalizing ids defined entries with
  | nil => rfl
  | @cons r r' rs rs' hr _ ih =>
      cases ids with
      | nil => rfl
      | cons id ids => simp only [List.zip_cons_cons, define, hr.1, hr.2.returnType, ih]

theorem defineAll_congr (h : p.Alike q) : defineAll q = defineAll p := by
  simp only [defineAll, declareAll_congr h.routines, define_congr h.routines]

/-- The check passes in both programs or finds a function of the same name in both. -/
theorem verify_congr (h : p.Alike q) : (verify p = .ok () ∧ verify q = .ok ()) ∨
    ∃ name report report' text text', verify p = .error (.verification name report text) ∧
      verify q = .error (.verification name report' text') := by
  have hfind : Option.Rel (fun r r' => r'.name = r.name)
      (p.routines.find? (!·.code.isValid)) (q.routines.find? (!·.code.isValid)) := by
    refine List.Forall₂.rec .none ?_ h.routines
    rintro r r' rs rs' ⟨hname, hr⟩ - ih
    rw [List.find?_cons, List.find?_cons, hr.isValid]
    split
    · exact .some hname
    · exact ih
  unfold verify
  generalize p.routines.find? (!·.code.isValid) = found,
    q.routines.find? (!·.code.isValid) = found' at hfind
  cases hfind with
  | none => exact Or.inl ⟨rfl, rfl⟩
  | @some r r' hname =>
      exact Or.inr ⟨r.name, r.code.report, r'.code.report, p.text, q.text, rfl, by rw [← hname]⟩

/-- Programs that are alike are executed alike, but for the texts of a failed check. -/
theorem execute_congr (h : p.Alike q) (engine : Engine) (entry : String) :
    (engine.execute q entry).1 = (engine.execute p entry).1 ∨
      ∃ name report report' text text',
        (engine.execute p entry).1 = .error (.verification name report text) ∧
        (engine.execute q entry).1 = .error (.verification name report' text') := by
  rcases hloaded : engine.isLoaded with _ | _
  case true =>
    left
    simp only [execute, load, hloaded, if_true]
  rcases verify_congr h with ⟨hp, hq⟩ | ⟨name, report, report', text, text', hp, hq⟩
  · left
    rcases hdefine : defineAll p with e | entries
    · have himage : image p = .error e := by
        simp only [image, hp, hdefine, bind, Except.bind]
      have himage' : image q = .error e := by
        simp only [image, hq, defineAll_congr h, hdefine, bind, Except.bind]
      rw [execute_of_error hloaded himage, execute_of_error hloaded himage']
    · have himage : image p = .ok ⟨p.routines, entries⟩ := by
        simp only [image, hp, hdefine, bind, Except.bind]
        rfl
      have himage' : image q = .ok ⟨q.routines, entries⟩ := by
        simp only [image, hq, defineAll_congr h, hdefine, bind, Except.bind]
        rfl
      have hrun (e : Entry) : Image.run? ⟨q.routines, entries⟩ e =
          Image.run? ⟨p.routines, entries⟩ e := by
        simp only [Image.run?, h.linkage, h.routines.length_eq]
      rw [execute_of_image hloaded himage, execute_of_image hloaded himage']
      simp only [call, hrun]
  · right
    have himage : image p = .error (.verification name report text) := by
      simp only [image, hp, bind, Except.bind]
    have himage' : image q = .error (.verification name report' text') := by
      simp only [image, hq, bind, Except.bind]
    refine ⟨name, report, report', text, text', ?_, ?_⟩
    · rw [execute_of_error hloaded himage]
    · rw [execute_of_error hloaded himage']

end Engine

end ScalarLang
