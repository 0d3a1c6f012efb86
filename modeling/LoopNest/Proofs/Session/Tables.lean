import LoopNest.Proofs.Registry
import LoopNest.Session

/-!
# Registries over a session

A session is asked for many things, but there are only two kinds of effect on its registries
(`Effect`): none at all, or one successful registration in one of them.  A request that fails has
none, wherever it fails: at the name, at the text, when the text is read back, or before that in the
compilation.  All that is said about the tables after a request follows from this, and what is said
about a whole session follows by induction on its requests.

* `registers_perform`: what a request can do.
* `sound_after`, `extends_after`: the registries after any requests.
* `tables_intact`: the tables over every session.
-/

namespace LoopNest

/-- An accepted kernel is compiled as the kernel that it holds. -/
theorem AnyKernel.exists_compile_of_ok {k : AnyKernel} {inPlace : Bool} {c : Compilation}
    {after : Kernel k.m k.n} (h : (Kernel.compile inPlace).run k.kernel = .ok c after) :
    ∃ hafter : after.Distinct, (compile inPlace).run k = .ok c ⟨after, hafter⟩ := by
  have hleave : ∀ result, result = .ok c after → ∀ hnames,
      ∃ hafter : after.Distinct, k.leave result hnames = .ok c ⟨after, hafter⟩ := by
    rintro _ rfl hnames
    exact ⟨_, rfl⟩
  exact hleave _ h _

namespace Session

variable {ι : Type} {α β : Type} {s : Session ι}

/-! ## Steps of a session -/

/-- The session after a kernel was compiled under a fresh name. -/
def compiled (s : Session ι) (i : ι) (index : Nat) (kernel : AnyKernel) : Session ι :=
  { s with counter := s.nextNumber i + 1, kernels := s.kernels.set index kernel }

theorem run_of_absent {index : Nat} (desk : Desk ι) (hkernel : s.kernel? index = none) :
    (run desk index).run s = .error (.noKernel index) s := by
  rw [run, run_get_bind, hkernel]
  rfl

theorem run_of_present {index : Nat} {kernel : AnyKernel} (desk : Desk ι)
    (hkernel : s.kernel? index = some kernel) :
    (run desk index).run s =
      match (AnyKernel.compile desk.inPlace).run kernel with
      | .ok c k =>
        .ok (numberedName (s.nextNumber desk.registry), c) (s.compiled desk.registry index k)
      | .error e k => .error (.compile e) (s.compiled desk.registry index k) := by
  rw [run, run_get_bind, hkernel]
  dsimp only
  rw [run_bind_of_ok _ (show (freshName desk.registry).run s = .ok _ _ from rfl), run_get_bind]
  cases (AnyKernel.compile desk.inPlace).run kernel <;> rfl

theorem inWorld_run (invocation : Invocation Value) (s : Session ι) :
    (inWorld invocation).run s =
      match invocation.run s.world with
      | .ok value w => .ok value { s with world := w }
      | .error e w => .error (.invoke e) { s with world := w } := by
  rw [inWorld, run_get_bind]
  cases invocation.run s.world <;> rfl

/-! ## Steps that enter nothing -/

/-- The step enters nothing into a registry and hands out no handle. -/
def EntersNothing (step : SessionStep ι α) : Prop :=
  ∀ s, (ended (step.run s)).registry = s.registry ∧ (ended (step.run s)).handles = s.handles

theorem entersNothing_pure (a : α) : EntersNothing (pure a : SessionStep ι α) := fun _ => ⟨rfl, rfl⟩

theorem EntersNothing.bind {step : SessionStep ι α} {f : α → SessionStep ι β}
    (hstep : EntersNothing step) (hf : ∀ a, EntersNothing (f a)) : EntersNothing (step >>= f) := by
  intro s
  have hfirst := hstep s
  cases hrun : step.run s with
  | ok a s₁ =>
    rw [hrun] at hfirst
    rw [run_bind_of_ok f hrun]
    exact ⟨(hf a s₁).1.trans hfirst.1, (hf a s₁).2.trans hfirst.2⟩
  | error e s₁ =>
    rw [hrun] at hfirst
    rw [run_bind_of_error f hrun]
    exact hfirst

theorem entersNothing_run (desk : Desk ι) (index : Nat) : EntersNothing (run desk index) := by
  intro s
  cases hkernel : s.kernel? index with
  | none =>
    rw [run_of_absent desk hkernel]
    exact ⟨rfl, rfl⟩
  | some kernel =>
    rw [run_of_present desk hkernel]
    cases (AnyKernel.compile desk.inPlace).run kernel <;> exact ⟨rfl, rfl⟩

theorem entersNothing_inWorld (invocation : Invocation Value) :
    EntersNothing (inWorld invocation : SessionStep ι Value) := by
  intro s
  rw [inWorld_run]
  cases invocation.run s.world <;> exact ⟨rfl, rfl⟩

theorem entersNothing_invoke (i : ι) (name : String) (inputs : NameMap Value) :
    EntersNothing (invoke i name inputs) :=
  fun s => entersNothing_inWorld ((s.registry i).invoke name inputs) s

theorem entersNothing_call (index : Nat) (inputs : NameMap Value) :
    EntersNothing (call index inputs : SessionStep ι Value) := by
  intro s
  rw [call, run_get_bind]
  cases hhandle : s.handles[index]? with
  | none => exact ⟨rfl, rfl⟩
  | some entry => exact entersNothing_inWorld (entry.2.call (s.registry entry.1) inputs) s

/-! ## Steps that register -/

variable [DecidableEq ι]

/-- The session with one more program in a registry, whose handle is handed out. -/
def entered (s : Session ι) (i : ι) (r : Registry) (h : Handle) : Session ι :=
  { s.setRegistry i r with handles := s.handles ++ [(i, h)] }

theorem register_run (i : ι) (name : String) (parameters : List String) (body : Expr)
    (s : Session ι) :
    (register i name parameters body).run s =
      match (s.registry i).register name parameters body with
      | .error e => .error (.register e) s
      | .ok (r, h) => .ok h (s.entered i r h) := by
  rw [register, run_get_bind]
  cases (s.registry i).register name parameters body <;> rfl

@[simp] theorem registry_entered (s : Session ι) (i : ι) (r : Registry) (h : Handle) :
    (s.entered i r h).registry i = r := if_pos rfl

theorem compile_of_absent {index : Nat} (desk : Desk ι) (hkernel : s.kernel? index = none) :
    (compile desk index).run s = .error (.noKernel index) s :=
  run_bind_of_error _ (run_of_absent desk hkernel)

theorem compile_of_present {index : Nat} {kernel : AnyKernel} (desk : Desk ι)
    (hkernel : s.kernel? index = some kernel) :
    (compile desk index).run s =
      match (AnyKernel.compile desk.inPlace).run kernel with
      | .error e k => .error (.compile e) (s.compiled desk.registry index k)
      | .ok c k =>
        match (s.registry desk.registry).register (numberedName (s.nextNumber desk.registry))
          c.parameters c.tree with
        | .error e => .error (.register e) (s.compiled desk.registry index k)
        | .ok (r, h) => .ok h ((s.compiled desk.registry index k).entered desk.registry r h) := by
  have hrun := run_of_present desk hkernel
  cases hcompile : (AnyKernel.compile desk.inPlace).run kernel with
  | error e k =>
    rw [hcompile] at hrun
    exact run_bind_of_error _ hrun
  | ok c k =>
    rw [hcompile] at hrun
    rw [compile, run_bind_of_ok _ hrun, register_run]
    rfl

/-! ## What a request can do -/

/-- What a request does to the registries and the handles: nothing, or one registration. -/
inductive Effect (s s' : Session ι) : Prop where
  | none (registry : s'.registry = s.registry) (handles : s'.handles = s.handles)
  | entry {i : ι} {r : Registry} {h : Handle} {name : String} {parameters : List String}
      {body : Expr} (ok : (s.registry i).register name parameters body = .ok (r, h))
      (registry : s'.registry = (s.setRegistry i r).registry)
        (handles : s'.handles = s.handles ++ [(i, h)])

/-- The step registers at most one tree, and none if it fails. -/
def Registers (step : SessionStep ι α) : Prop :=
  ∀ s, match step.run s with
    | .ok _ s' => Effect s s'
    | .error _ s' => s'.registry = s.registry ∧ s'.handles = s.handles

theorem EntersNothing.registers {step : SessionStep ι α} (h : EntersNothing step) :
    Registers step := by
  intro s
  have hs := h s
  cases hrun : step.run s with
  | ok a s' =>
    rw [hrun] at hs
    exact .none hs.1 hs.2
  | error e s' =>
    rw [hrun] at hs
    exact hs

/-- It does not count what is made of the result. -/
theorem Registers.answer {step : SessionStep ι α} (h : Registers step) (f : α → β) :
    Registers (step >>= fun a => pure (f a)) := by
  intro s
  have hs := h s
  rw [EStateM.run_bind]
  cases hrun : step.run s with
  | ok a s' =>
    rw [hrun] at hs
    exact hs
  | error e s' =>
    rw [hrun] at hs
    exact hs

theorem registers_register (i : ι) (name : String) (parameters : List String) (body : Expr) :
    Registers (register i name parameters body) := by
  intro s
  rw [register_run]
  cases hok : (s.registry i).register name parameters body with
  | error e => exact ⟨rfl, rfl⟩
  | ok entry => exact .entry hok rfl rfl

theorem registers_compile (desk : Desk ι) (index : Nat) : Registers (compile desk index) := by
  intro s
  cases hkernel : s.kernel? index with
  | none =>
    rw [compile_of_absent desk hkernel]
    exact ⟨rfl, rfl⟩
  | some kernel =>
    rw [compile_of_present desk hkernel]
    cases (AnyKernel.compile desk.inPlace).run kernel with
    | error e k => exact ⟨rfl, rfl⟩
    | ok c k =>
      dsimp only
      cases hok : (s.registry desk.registry).register (numberedName (s.nextNumber desk.registry))
          c.parameters c.tree with
      | error e => exact ⟨rfl, rfl⟩
      | ok entry => exact .entry hok rfl rfl

/-- **A request registers at most one tree, and none if it fails.** -/
theorem registers_perform (request : Request ι) : Registers (perform request) := by
  cases request with
  | run desk index =>
    exact ((entersNothing_run desk index).bind fun _ => entersNothing_pure _).registers
  | lower desk index =>
    exact ((entersNothing_run desk index).bind fun _ => entersNothing_pure _).registers.answer _
  | compile desk index => exact (registers_compile desk index).answer _
  | register i name parameters body => exact (registers_register i name parameters body).answer _
  | invoke i name inputs => exact (entersNothing_invoke i name inputs).registers.answer _
  | call index inputs => exact (entersNothing_call index inputs).registers.answer _
  | edit index kernel => exact fun s => .none rfl rfl

theorem effect_next (s : Session ι) (request : Request ι) : Effect s (s.next request) := by
  have hs := registers_perform request s
  unfold next
  cases hrun : (perform request).run s with
  | ok reply s' =>
    rw [hrun] at hs
    exact hs
  | error e s' =>
    rw [hrun] at hs
    exact .none hs.1 hs.2

theorem perform_error {s s' : Session ι} {request : Request ι} {e : SessionError}
    (h : (perform request).run s = .error e s') : s'.registry = s.registry := by
  have hs := registers_perform request s
  rw [h] at hs
  exact hs.1

omit [DecidableEq ι] in
/-- What comes after a step does not count if it changes nothing. -/
theorem ended_bind {step : SessionStep ι α} {f : α → SessionStep ι β}
    (hf : ∀ a s, ended ((f a).run s) = s) (s : Session ι) :
    ended ((step >>= f).run s) = ended (step.run s) := by
  rw [EStateM.run_bind]
  cases step.run s with
  | ok a s₁ => exact hf a s₁
  | error e s₁ => rfl

theorem next_register {i : ι} {r : Registry} {h : Handle} {name : String} {parameters : List String}
    {body : Expr} (hok : (s.registry i).register name parameters body = .ok (r, h)) :
    s.next (.register i name parameters body) = s.entered i r h := by
  rw [next, perform, ended_bind fun _ _ => rfl, register_run, hok]
  rfl

omit [DecidableEq ι] in
theorem run_bind_pure_eq_error_iff {step : SessionStep ι α} {f : α → β} {s s' : Session ι}
    {e : SessionError} :
    (step >>= fun a => pure (f a)).run s = .error e s' ↔ step.run s = .error e s' := by
  rw [EStateM.run_bind]
  cases step.run s with
  | ok a s₁ =>
    constructor
    · intro h; cases h
    · intro h; cases h
  | error e s₁ =>
    constructor
    · intro h; cases h; rfl
    · intro h; cases h; rfl

/-! ## Whole sessions -/

theorem Effect.extends {s s' : Session ι} (h : Effect s s') (i : ι) :
    (s.registry i).Extends (s'.registry i) := by
  cases h with
  | none hregistry =>
    rw [hregistry]
    exact .refl _
  | @entry j r _ _ _ _ hok hregistry =>
    rw [hregistry, setRegistry]
    dsimp only
    split
    · next hij =>
      rw [hij]
      exact Registry.extends_of_register hok
    · exact .refl _

theorem Effect.sound {s s' : Session ι} (h : Effect s s') (hs : ∀ i, (s.registry i).Sound) (i : ι) :
    (s'.registry i).Sound := by
  cases h with
  | none hregistry =>
    rw [hregistry]
    exact hs i
  | @entry j r _ _ _ _ hok hregistry =>
    rw [hregistry, setRegistry]
    dsimp only
    split
    · exact Registry.sound_of_register (hs j) hok
    · exact hs i

theorem extends_after (s : Session ι) (requests : List (Request ι)) (i : ι) :
    (s.registry i).Extends ((s.after requests).registry i) := by
  induction requests generalizing s with
  | nil => exact .refl _
  | cons request requests ih =>
    exact ((effect_next s request).extends i).trans (ih (s.next request))

theorem sound_after {s : Session ι} (hs : ∀ i, (s.registry i).Sound) (requests : List (Request ι))
    (i : ι) :
    ((s.after requests).registry i).Sound := by
  induction requests generalizing s with
  | nil => exact hs i
  | cons request requests ih => exact ih ((effect_next s request).sound hs)

/-- Requests lead to the session from one with empty registries. -/
def Reached (s : Session ι) : Prop :=
  ∃ kernels functions requests, s = (start kernels functions).after requests

theorem Reached.sound {s : Session ι} (hs : s.Reached) (i : ι) : (s.registry i).Sound := by
  obtain ⟨kernels, functions, requests, rfl⟩ := hs
  exact sound_after (fun j => Registry.sound_empty (functions j)) requests i

omit [DecidableEq ι] in
theorem inWorld_throw (e : InvokeError) (s : Session ι) :
    (inWorld (throw e)).run s = .error (.invoke e) s := by
  rw [inWorld_run]
  rfl

omit [DecidableEq ι] in
/-- Inputs for other names than the parameters are refused, and nothing runs. -/
theorem invoke_of_not_fits {i : ι} {name : String} {h : Handle} {inputs : NameMap Value}
    (hname : (s.registry i).handles.find? name = some h) (hfits : ¬ h.Fits inputs.names) :
    ∃ missing unexpected, (invoke i name inputs).run s
      = .error (.invoke (.wrongInputs name missing unexpected)) s ∧
      (∀ x, x ∈ missing ↔ x ∈ h.parameters ∧ x ∉ inputs.names) ∧
      ∀ x, x ∈ unexpected ↔ x ∈ inputs.names ∧ x ∉ h.parameters := by
  obtain ⟨missing, unexpected, hinvoke, hspec⟩ := Registry.invoke_of_not_fits hname hfits
  refine ⟨missing, unexpected, ?_, hspec⟩
  rw [invoke, run_get_bind, hinvoke, inWorld_throw]

/-- **Over every session the tables stay intact.**  They have the same names; what stands under a
name stays there after any requests; a request that fails changes no table; and a program is not run
on inputs for other names than its parameters. -/
theorem tables_intact {s : Session ι} (hs : s.Reached) (i : ι) :
    (s.registry i).handles.names = (s.registry i).programs.names ∧
      (∀ requests x h, (s.registry i).handles.find? x = some h →
        ((s.after requests).registry i).handles.find? x = some h ∧
          ((s.after requests).registry i).programs.find? x = (s.registry i).programs.find? x) ∧
      (∀ request e s', (perform request).run s = .error e s' →
        (s'.registry i).handles = (s.registry i).handles ∧
          (s'.registry i).programs = (s.registry i).programs) ∧
      ∀ x h inputs, (s.registry i).handles.find? x = some h → ¬ h.Fits inputs.names →
        ∃ missing unexpected,
          (perform (.invoke i x inputs)).run s
            = .error (.invoke (.wrongInputs x missing unexpected)) s ∧
          (∀ y, y ∈ missing ↔ y ∈ h.parameters ∧ y ∉ inputs.names) ∧
          ∀ y, y ∈ unexpected ↔ y ∈ inputs.names ∧ y ∉ h.parameters := by
  refine ⟨(hs.sound i).names, fun requests => (extends_after s requests i).kept, ?_, ?_⟩
  · intro request e s' herror
    rw [perform_error herror]
    exact ⟨rfl, rfl⟩
  · intro x h inputs hx hfits
    obtain ⟨missing, unexpected, hinvoke, hspec⟩ := invoke_of_not_fits hx hfits
    exact ⟨missing, unexpected, run_bind_pure_eq_error_iff.mpr hinvoke, hspec⟩

/-- A session with one program, which answers its only input. -/
def answering : Session Unit :=
  (start [] fun _ => .empty).after [.register () "k" ["x"] (.name "x")]

theorem find?_answering :
    ∃ h, (answering.registry ()).handles.find? "k" = some h ∧ h.parameters = ["x"] := by
  have hsource : Source.function "k" ["x"] (.name "x") = .ok _ := rfl
  obtain ⟨program, hread, hname⟩ := Option.map_eq_some_iff.mp
    (show ((Source.function "k" ["x"] (.name "x")).toOption.bind Program.read?).map Program.name
      = some "k" by
      decide +kernel)
  have hok := Registry.register_eq_ok_iff.mpr
    ⟨show (Registry.empty .empty).contains "k" = false from rfl, _, program, hsource, hread, hname,
      rfl, rfl⟩
  have hregistry : answering.registry () = _ :=
    (congrArg (fun s : Session Unit => s.registry ()) (next_register hok)).trans
      (registry_entered _ _ _ _)
  exact ⟨_, hregistry ▸ (Registry.find?_of_register hok).1, rfl⟩

/-- The program stays under its name when the name is asked for again, and it does not run without
its input. -/
theorem tables_intact_answering :
    answering.Reached ∧ ∃ h, (answering.registry ()).handles.find? "k" = some h ∧
      ((answering.after [.register () "k" [] (.literal (.int 1))]).registry ()).handles.find? "k"
        = some h ∧
      ∃ missing unexpected, (perform (.invoke () "k" .empty)).run answering
        = .error (.invoke (.wrongInputs "k" missing unexpected)) answering ∧ "x" ∈ missing := by
  have hreached : answering.Reached := ⟨_, _, _, rfl⟩
  obtain ⟨h, hfind, hparameters⟩ := find?_answering
  obtain ⟨-, hkept, -, hinvoke⟩ := tables_intact hreached ()
  have hfits : ¬ h.Fits (NameMap.empty : NameMap Value).names := fun hfits => by
    have hx : "x" ∈ (NameMap.empty : NameMap Value).names :=
      (hfits "x").mpr (by rw [hparameters]; decide)
    cases hx
  obtain ⟨missing, unexpected, hrun, hmissing, -⟩ := hinvoke "k" h .empty hfind hfits
  refine ⟨hreached, h, hfind, (hkept _ "k" h hfind).1, missing, unexpected, hrun,
    (hmissing "x").mpr ⟨?_, ?_⟩⟩
  · rw [hparameters]
    decide
  · exact List.not_mem_nil

end Session
end LoopNest
