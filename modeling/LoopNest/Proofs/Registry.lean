import LoopNest.Proofs.Kernel.Unwritten
import LoopNest.Proofs.NameMap
import LoopNest.Proofs.Outcome
import LoopNest.Registry

/-!
# What a registry holds

A registry has two tables, one of handles and one of programs.  Registering a tree writes both,
after three steps that can fail: the name must be free, the tree must have source text, and the text
must be read back as a program of that name.  Nothing is written before all three have succeeded.

* `register_eq_ok_iff`: when a registration succeeds, and what it writes.
* `Sound`: the tables have the same names, and a program is what the text of its handle reads as.
* `Extends`: what is registered stays as it is.
* `invoke_of_fits`, `invoke_of_not_fits`: an invocation with the right names, and one with others.
-/

namespace LoopNest

/-- The names are just the parameters of the handle. -/
def Handle.Fits (h : Handle) (names : List String) : Prop := ∀ x, x ∈ names ↔ x ∈ h.parameters

namespace Registry

variable {r r' : Registry} {name : String} {parameters : List String} {body : Expr} {h : Handle}

/-! ## Registering -/

/-- The registry with one more program. -/
def entered (r : Registry) (h : Handle) (program : Program) : Registry :=
  { r with handles := r.handles.insert h.name h, programs := r.programs.insert h.name program }

@[simp] theorem handles_entered (r : Registry) (h : Handle) (program : Program) :
    (r.entered h program).handles = r.handles.insert h.name h := rfl

@[simp] theorem programs_entered (r : Registry) (h : Handle) (program : Program) :
    (r.entered h program).programs = r.programs.insert h.name program := rfl

theorem register_of_taken (hname : r.contains name = true) :
    r.register name parameters body = .error (.taken name) := by
  rw [register, hname]
  rfl

theorem register_of_free (hname : r.contains name = false) :
    r.register name parameters body =
      match Source.function name parameters body with
      | .error e => .error (.source e)
      | .ok source =>
        match Program.read? source with
        | none => .error .refused
        | some program =>
          if program.name = name then
            .ok (r.entered ⟨name, parameters, source⟩ program, ⟨name, parameters, source⟩)
          else .error (.renamed name) := by
  rw [register, hname]
  cases Source.function name parameters body with
  | error e => rfl
  | ok source =>
    dsimp only [Except.mapError]
    cases hread : Program.read? source with
    | none => simp [bind, Except.bind, hread]; rfl
    | some program =>
      by_cases hprogram : program.name = name
      · simp [bind, Except.bind, pure, Except.pure, hread, hprogram, entered]
      · simp [bind, Except.bind, hread, hprogram]; rfl

/-- A registration succeeds if the name is free and the tree has a text that reads as a program of
this name.  It enters the handle and the program. -/
theorem register_eq_ok_iff :
    r.register name parameters body = .ok (r', h) ↔
      r.contains name = false ∧ ∃ source program,
        Source.function name parameters body = .ok source ∧
        Program.read? source = some program ∧ program.name = name ∧ h = ⟨name, parameters, source⟩ ∧
        r' = r.entered h program := by
  cases hname : r.contains name with
  | true => simp [register_of_taken hname]
  | false =>
    rw [register_of_free hname]
    constructor
    · intro hok
      split at hok
      · cases hok
      · next source hsource =>
        split at hok
        · cases hok
        · next program hread =>
          split at hok
          · next hprogram =>
            cases hok
            exact ⟨rfl, source, program, hsource, hread, hprogram, rfl, rfl⟩
          · cases hok
    · rintro ⟨-, source, program, hsource, hread, hprogram, rfl, rfl⟩
      rw [hsource]
      dsimp only
      rw [hread]
      dsimp only
      rw [if_pos hprogram]

/-- A free name is never refused as taken. -/
theorem register_ne_taken (hname : r.contains name = false) (x : String) :
    r.register name parameters body ≠ .error (.taken x) := by
  rw [register_of_free hname]
  intro htaken
  split at htaken
  · cases htaken
  · split at htaken
    · cases htaken
    · split at htaken <;> cases htaken

/-! ## Tables that belong together -/

/-- The tables have the same names, and under each name stands the program that the text of its
handle reads as. -/
structure Sound (r : Registry) : Prop where
  names : r.handles.names = r.programs.names
  reads : ∀ x h, r.handles.find? x = some h → h.name = x ∧
    ∃ program, r.programs.find? x = some program ∧ Program.read? h.source = some program ∧
      program.name = x

/-- Every handle of the first registry is in the second, with the same program. -/
structure Extends (r r' : Registry) : Prop where
  functions : r'.functions = r.functions
  kept : ∀ x h, r.handles.find? x = some h →
    r'.handles.find? x = some h ∧ r'.programs.find? x = r.programs.find? x

theorem Extends.refl (r : Registry) : r.Extends r := ⟨rfl, fun _ _ hx => ⟨hx, rfl⟩⟩

theorem Extends.trans {r₁ r₂ r₃ : Registry} (h₁ : r₁.Extends r₂) (h₂ : r₂.Extends r₃) :
    r₁.Extends r₃ := by
  refine ⟨h₂.functions.trans h₁.functions, fun x h hx => ?_⟩
  obtain ⟨hx₂, hprogram₂⟩ := h₁.kept x h hx
  obtain ⟨hx₃, hprogram₃⟩ := h₂.kept x h hx₂
  exact ⟨hx₃, hprogram₃.trans hprogram₂⟩

theorem sound_empty (functions : Functions) : (empty functions).Sound :=
  ⟨rfl, fun x h hx => by cases hx⟩

/-- A registration takes no name that is taken. -/
theorem extends_of_register (hok : r.register name parameters body = .ok (r', h)) :
    r.Extends r' := by
  obtain ⟨hname, source, program, -, -, -, rfl, rfl⟩ := register_eq_ok_iff.mp hok
  refine ⟨rfl, fun x h hx => ?_⟩
  have hne : x ≠ name := by
    rintro rfl
    rw [contains, NameMap.contains, hx] at hname
    cases hname
  rw [handles_entered, programs_entered, NameMap.find?_insert, NameMap.find?_insert, if_neg hne,
    if_neg hne]
  exact ⟨hx, rfl⟩

/-- The two tables grow by the same name. -/
theorem sound_of_register (hr : r.Sound) (hok : r.register name parameters body = .ok (r', h)) :
    r'.Sound := by
  obtain ⟨hname, source, program, -, hread, hprogram, rfl, rfl⟩ := register_eq_ok_iff.mp hok
  have hhandles : r.handles.contains name = false := hname
  have hprograms : r.programs.contains name = false := by
    rw [← Bool.not_eq_true,
      NameMap.contains_iff_mem_names, ← hr.names, ← NameMap.contains_iff_mem_names, hhandles]
    decide
  refine ⟨?_, fun x h hx => ?_⟩
  · rw [handles_entered, programs_entered, NameMap.names_insert_of_not_contains hhandles,
      NameMap.names_insert_of_not_contains hprograms, hr.names]
  · rw [handles_entered, NameMap.find?_insert] at hx
    rw [programs_entered, NameMap.find?_insert]
    split at hx
    · next hxname =>
      cases hx
      rw [if_pos hxname]
      exact ⟨hxname.symm, program, rfl, hread, hprogram.trans hxname.symm⟩
    · next hxname =>
      rw [if_neg hxname]
      exact hr.reads x h hx

/-- What was registered is found. -/
theorem find?_of_register (hok : r.register name parameters body = .ok (r', h)) :
    r'.handles.find? h.name = some h ∧
      ∃ program, r'.programs.find? h.name = some program ∧
        Program.read? h.source = some program := by
  obtain ⟨-, source, program, -, hread, -, rfl, rfl⟩ := register_eq_ok_iff.mp hok
  refine ⟨?_, program, ?_, hread⟩
  · rw [handles_entered, NameMap.find?_insert, if_pos rfl]
  · rw [programs_entered, NameMap.find?_insert, if_pos rfl]

/-! ## Inputs -/

/-- Inputs for other names than the parameters are refused, and it is told which are too few and
which too many. -/
theorem checkInputs_of_not_fits (name : String) {inputs : List String} (hfits : ¬ h.Fits inputs) :
    ∃ missing unexpected,
      checkInputs name h inputs = .error (.wrongInputs name missing unexpected) ∧
      (∀ x, x ∈ missing ↔ x ∈ h.parameters ∧ x ∉ inputs) ∧
      ∀ x, x ∈ unexpected ↔ x ∈ inputs ∧ x ∉ h.parameters := by
  refine ⟨h.parameters.filter fun x => !inputs.contains x,
    Text.sortedNames (inputs.filter fun x => !h.parameters.contains x), ?_, ?_, ?_⟩
  · rw [checkInputs, if_neg]
    simp only [Bool.and_eq_true, List.isEmpty_iff, List.filter_eq_nil_iff, Bool.not_eq_true',
      Bool.not_eq_false, List.contains_iff_mem]
    rintro ⟨hmissing, hunexpected⟩
    exact hfits fun x => ⟨hunexpected x, hmissing x⟩
  · simp
  · simp [Text.mem_sortedNames]

theorem checkInputs_of_fits (name : String) {inputs : List String} (hfits : h.Fits inputs) :
    checkInputs name h inputs = .ok () := by
  rw [checkInputs, if_pos]
  simp only [Bool.and_eq_true, List.isEmpty_iff, List.filter_eq_nil_iff, Bool.not_eq_true',
    Bool.not_eq_false, List.contains_iff_mem]
  exact ⟨fun x => (hfits x).mpr, fun x => (hfits x).mp⟩

theorem invoke_of_not_fits (hname : r.handles.find? name = some h) {inputs : NameMap Value}
    (hfits : ¬ h.Fits inputs.names) :
    ∃ missing unexpected, r.invoke name inputs = throw (.wrongInputs name missing unexpected) ∧
      (∀ x, x ∈ missing ↔ x ∈ h.parameters ∧ x ∉ inputs.names) ∧
      ∀ x, x ∈ unexpected ↔ x ∈ inputs.names ∧ x ∉ h.parameters := by
  obtain ⟨missing, unexpected, hcheck, hspec⟩ := checkInputs_of_not_fits name hfits
  refine ⟨missing, unexpected, ?_, hspec⟩
  rw [invoke, select, get, hname]
  simp only [bind_ok, hcheck]
  rfl

theorem invoke_of_fits (hname : r.handles.find? name = some h) {program : Program}
    (hprogram : r.programs.find? name = some program) {inputs : NameMap Value}
    (hfits : h.Fits inputs.names) :
    r.invoke name inputs = (program.run r.functions inputs).adaptExcept .fault := by
  rw [invoke, select, get, hname]
  simp only [bind_ok, checkInputs_of_fits name hfits, hprogram]
  rfl

end Registry
end LoopNest
