import LoopNest.Proofs.Session.Tables

/-!
# Calls of handles

There are two ways to run a program: to invoke it by its name in a registry, and to call the handle
that a compilation answered.  A call is passed on as an invocation under the name of the handle.  A
handle keeps its place among the handles of a session, and its entries in the registry, whatever
else is asked for (`Handed.after`), so a call can come at any time.

The two ways differ in one point.  A call binds its inputs next to the handle itself, which has a
name there as well.  An input with this name is a fault of the call, before the names of the inputs
are looked at, while an invocation takes it as any other.  A kernel can have a parameter of this
name: `call_fails_on_ownName` is one that can be invoked but not called.

* `invoke_of_fits`, `reports_invoke_iff`: invocations of a program that is registered.
* `call_of_other`, `call_of_ownName`: calls of a handle as invocations, and where they are none.
* `call_as_invoke`: what a handle does after its compilation.
-/

namespace LoopNest

namespace Handle

variable {h : Handle} {r : Registry} {inputs : NameMap Value}

theorem call_eq_invoke (hown : inputs.contains ownName = false) :
    h.call r inputs = r.invoke h.name inputs := by
  rw [call, hown]
  rfl

theorem call_eq_throw (hown : inputs.contains ownName = true) :
    h.call r inputs = throw (.fault .kind) := by
  rw [call, hown]
  rfl

end Handle

namespace Session

variable {ι : Type} {s s' : Session ι} {i : ι} {h : Handle} {program : Program} {place : Nat}
  {inputs : NameMap Value}

/-! ## Handles that were handed out -/

/-- The handle at a place belongs to a program of a registry. -/
structure Handed (s : Session ι) (place : Nat) (i : ι) (h : Handle) (program : Program) : Prop where
  handle : s.handles[place]? = some (i, h)
  entry : (s.registry i).handles.find? h.name = some h
  program : (s.registry i).programs.find? h.name = some program

section Requests

variable [DecidableEq ι]

/-- Handles are handed out behind each other. -/
theorem Effect.isPrefix_handles (heffect : Effect s s') : s.handles <+: s'.handles := by
  cases heffect with
  | none _ hhandles => rw [hhandles]
  | entry _ _ hhandles =>
    rw [hhandles]
    exact List.prefix_append _ _

theorem Handed.next (hs : Handed s place i h program) (request : Request ι) :
    Handed (s.next request) place i h program := by
  have heffect := effect_next s request
  obtain ⟨hentry, hprogram⟩ := (heffect.extends i).kept h.name h hs.entry
  obtain ⟨hplace, hget⟩ := List.getElem?_eq_some_iff.mp hs.handle
  refine ⟨?_, hentry, hprogram.trans hs.program⟩
  rw [List.prefix_iff_getElem?.mp heffect.isPrefix_handles place hplace, hget]

/-- A handle stays what it is, whatever is asked for. -/
theorem Handed.after (hs : Handed s place i h program) (requests : List (Request ι)) :
    Handed (s.after requests) place i h program := by
  induction requests generalizing s with
  | nil => exact hs
  | cons request requests ih => exact ih (hs.next request)

theorem handed_of_register {name : String} {parameters : List String} {body : Expr}
    (hok : (register i name parameters body).run s = .ok h s') :
    ∃ program, Program.read? h.source = some program ∧ Handed s' s.handles.length i h program := by
  rw [register_run] at hok
  split at hok
  · cases hok
  · next hentry =>
    cases hok
    obtain ⟨hfind, program, hprogram, hread⟩ := Registry.find?_of_register hentry
    refine ⟨program, hread, List.getElem?_concat_length, ?_, ?_⟩
    · rw [registry_entered]
      exact hfind
    · rw [registry_entered]
      exact hprogram

/-- A compilation hands out the handle of the program that its text reads as, at the next place. -/
theorem handed_of_compile {desk : Desk ι} {index : Nat}
    (hok : (compile desk index).run s = .ok h s') :
    ∃ program, Program.read? h.source = some program ∧
      Handed s' s.handles.length desk.registry h program := by
  obtain ⟨⟨name, c⟩, s₁, hrun, hregister⟩ := run_bind_eq_ok_iff.mp hok
  have hhandles := (entersNothing_run desk index s).2
  rw [hrun] at hhandles
  rw [← hhandles]
  exact handed_of_register hregister

theorem functions_of_compile {desk : Desk ι} {index : Nat}
    (hok : (compile desk index).run s = .ok h s') (i : ι) :
    (s'.registry i).functions = (s.registry i).functions := by
  have heffect := registers_compile desk index s
  rw [hok] at heffect
  exact (heffect.extends i).functions

end Requests

/-! ## Invocations -/

/-- The program runs in the world of the session. -/
theorem invoke_of_fits (hs : Handed s place i h program) (hfits : h.Fits inputs.names) :
    (invoke i h.name inputs).run s
      = (inWorld ((program.run (s.registry i).functions inputs).adaptExcept .fault)).run s := by
  rw [invoke, run_get_bind, Registry.invoke_of_fits hs.entry hs.program hfits]

/-- The step fails with a report on an invocation. -/
def Reports (step : SessionStep ι Value) (s : Session ι) : Prop :=
  ∃ e s' report, step.run s = .error (.invoke e) s' ∧ e.report? = some report ∧
    report.kind = .invocation

theorem fault_of_run {step : Step Value} {w w' : World} {e : InvokeError}
    (herror : (step.adaptExcept InvokeError.fault).run w = .error e w') : ∃ f, e = .fault f := by
  cases hrun : step.run w with
  | ok value w₁ =>
    rw [run_adaptExcept_of_ok _ hrun] at herror
    cases herror
  | error f w₁ =>
    rw [run_adaptExcept_of_error _ hrun] at herror
    cases herror
    exact ⟨f, rfl⟩

/-- What goes wrong in a run is a fault, which has no report. -/
theorem not_reports_run (step : Step Value) (s : Session ι) :
    ¬ Reports (inWorld (step.adaptExcept .fault)) s := by
  rintro ⟨e, s', report, herror, hreport, -⟩
  rw [inWorld_run] at herror
  split at herror
  · cases herror
  · next hrun =>
    cases herror
    obtain ⟨f, rfl⟩ := fault_of_run hrun
    cases hreport

/-- An invocation is reported just if the inputs are not given for the parameters of the handle. -/
theorem reports_invoke_iff (hs : Handed s place i h program) :
    Reports (invoke i h.name inputs) s ↔ ¬ h.Fits inputs.names := by
  constructor
  · rintro hreports hfits
    refine not_reports_run (program.run (s.registry i).functions inputs) s ?_
    rwa [Reports, ← invoke_of_fits hs hfits]
  · intro hfits
    obtain ⟨missing, unexpected, hinvoke, -⟩ := invoke_of_not_fits hs.entry hfits
    exact ⟨_, s, _, hinvoke, rfl, rfl⟩

/-! ## Calls -/

theorem call_run (hs : Handed s place i h program) (inputs : NameMap Value) :
    (call place inputs).run s = (inWorld (h.call (s.registry i) inputs)).run s := by
  rw [call, run_get_bind, hs.handle]

theorem call_of_other (hs : Handed s place i h program)
    (hown : inputs.contains Handle.ownName = false) :
    (call place inputs).run s = (invoke i h.name inputs).run s := by
  rw [call_run hs, Handle.call_eq_invoke hown, invoke, run_get_bind]

theorem call_of_ownName (hs : Handed s place i h program)
    (hown : inputs.contains Handle.ownName = true) :
    (call place inputs).run s = .error (.invoke (.fault .kind)) s := by
  rw [call_run hs, Handle.call_eq_throw hown, inWorld_throw]

variable [DecidableEq ι]

/-- **A handle is called as its program is invoked**, at any time after its compilation, unless an
input has the name that the call itself uses.  The invocation is reported just if the inputs are not
given for the parameters of the handle, and else runs the program that the text of the handle reads
as.  A call with an input of that name is a fault, and nothing runs. -/
theorem call_as_invoke {desk : Desk ι} {index : Nat}
    (hcompile : (compile desk index).run s = .ok h s') (requests : List (Request ι))
    (inputs : NameMap Value) :
    (Reports (invoke desk.registry h.name inputs) (s'.after requests) ↔ ¬ h.Fits inputs.names) ∧
      (h.Fits inputs.names → ∃ program, Program.read? h.source = some program ∧
        (invoke desk.registry h.name inputs).run (s'.after requests) =
          (inWorld ((program.run (s.registry desk.registry).functions inputs).adaptExcept
            .fault)).run (s'.after requests)) ∧
      (inputs.contains Handle.ownName = false →
        (call s.handles.length inputs).run (s'.after requests) =
          (invoke desk.registry h.name inputs).run (s'.after requests)) ∧
      (inputs.contains Handle.ownName = true →
        (call s.handles.length inputs).run (s'.after requests) =
          .error (.invoke (.fault .kind)) (s'.after requests)) := by
  obtain ⟨program, hread, hhanded⟩ := handed_of_compile hcompile
  have hafter := hhanded.after requests
  have hfunctions : ((s'.after requests).registry desk.registry).functions
      = (s.registry desk.registry).functions :=
    (extends_after s' requests desk.registry).functions.trans
      (functions_of_compile hcompile desk.registry)
  refine ⟨reports_invoke_iff hafter, fun hfits => ⟨program, hread, ?_⟩, call_of_other hafter,
    call_of_ownName hafter⟩
  rw [invoke_of_fits hafter hfits, hfunctions]

/-! ## A parameter with the name of the handle -/

/-- A kernel that adds one to its only parameter. -/
def successor (x : String) : Kernel 1 0 where
  instructionTable := #v[⟨"a", .assign (.name "y") (.call "+" [.name x, .literal (.int 1)]), []⟩]
  loopTable := #v[]
  instructions := List.finRange 1
  loops := []

theorem distinct_successor (x : String) : (successor x).Distinct := List.nodup_singleton _

/-- The number one under a name. -/
def one (x : String) : NameMap Value := ⟨[(x, .number .plain (.int 1))]⟩

/-- The successor is compiled with its parameter, and invoked on one it answers two. -/
theorem compile_successor {x : String} (hx : x = "x" ∨ x = Handle.ownName) :
    ∃ h s', (compile ⟨(), false⟩ 0).run
        (start [⟨successor x, distinct_successor x⟩] fun _ => .empty) = .ok h s' ∧
      h.parameters = [x] ∧
      ∃ t, (invoke () h.name (one x)).run s' = .ok (.number .plain (.int 2)) t := by
  obtain ⟨c, hc, hparameters, htree⟩ : ∃ c, (Kernel.compile false).run (successor x)
      = .ok c (successor x) ∧ c.parameters = [x] ∧
      c.tree = .form blockTag [.assign (.name "y") (.call "+" [.name x, .literal (.int 1)])] := by
    rcases hx with rfl | rfl <;> exact ⟨_, by cbv, by cbv, by cbv⟩
  obtain ⟨_, hcompiled⟩ :=
    AnyKernel.exists_compile_of_ok (k := ⟨successor x, distinct_successor x⟩) hc
  have hrun := run_of_present ⟨(), false⟩
    (show (start [⟨successor x, distinct_successor x⟩] fun _ : Unit => .empty).kernel? 0
      = some ⟨successor x, distinct_successor x⟩ from rfl)
  rw [hcompiled] at hrun
  -- what is left can be evaluated: the text is made and read back, and the program runs
  have hrest : ∃ t, (do
      let h ← register () (numberedName 1) [x]
        (.form blockTag [.assign (.name "y") (.call "+" [.name x, .literal (.int 1)])])
      return (h.parameters, ← invoke () h.name (one x))).run
        ((start [⟨successor x, distinct_successor x⟩] fun _ => .empty).compiled
          () 0 ⟨successor x, distinct_successor x⟩)
      = .ok ([x], .number .plain (.int 2)) t := by
    rw [← run'_eq_some_iff]
    rcases hx with rfl | rfl <;> decide +kernel
  obtain ⟨t, hrest⟩ := hrest
  obtain ⟨h, s', hregister, hrest⟩ := run_bind_eq_ok_iff.mp hrest
  obtain ⟨value, t', hinvoke, hpure⟩ := run_bind_eq_ok_iff.mp hrest
  simp only [EStateM.run_pure, EStateM.Result.ok.injEq, Prod.mk.injEq] at hpure
  obtain ⟨⟨hanswered, rfl⟩, rfl⟩ := hpure
  refine ⟨h, s', ?_, hanswered, _, hinvoke⟩
  rw [compile, run_bind_of_ok _ hrun]
  dsimp only
  rw [hparameters, htree]
  exact hregister

/-- A call with the parameter answers as the invocation does, and one without it is reported. -/
theorem call_as_invoke_successor :
    ∃ h s', (compile ⟨(), false⟩ 0).run
        (start [⟨successor "x", distinct_successor "x"⟩] fun _ => .empty) = .ok h s' ∧
      (∃ t, (call 0 (one "x")).run s' = .ok (.number .plain (.int 2)) t) ∧
        Reports (call 0 .empty) s' := by
  obtain ⟨h, s', hcompile, hparameters, t, hinvoke⟩ := compile_successor (.inl rfl)
  obtain ⟨-, -, hcall, -⟩ := call_as_invoke hcompile [] (one "x")
  obtain ⟨hreports, -, hcall', -⟩ := call_as_invoke hcompile [] .empty
  refine ⟨h, s', hcompile, ⟨t, (hcall (by decide)).trans hinvoke⟩, ?_⟩
  have hfits : ¬ h.Fits (NameMap.empty : NameMap Value).names := fun hfits => by
    have hx : "x" ∈ (NameMap.empty : NameMap Value).names :=
      (hfits "x").mpr (by rw [hparameters]; decide)
    cases hx
  obtain ⟨e, t, report, herror, hreport⟩ := hreports.mpr hfits
  exact ⟨e, t, report, (hcall' rfl).trans herror, hreport⟩

/-- The parameter has the name of the handle: the program can be invoked on it, and the handle
cannot be called. -/
theorem call_fails_on_ownName :
    ∃ h s', (compile ⟨(), false⟩ 0).run
        (start [⟨successor Handle.ownName, distinct_successor _⟩] fun _ => .empty) = .ok h s' ∧
      h.Fits (one Handle.ownName).names ∧
      (∃ t, (invoke () h.name (one Handle.ownName)).run s' = .ok (.number .plain (.int 2)) t) ∧
      (call 0 (one Handle.ownName)).run s' = .error (.invoke (.fault .kind)) s' := by
  obtain ⟨h, s', hcompile, hparameters, hinvoke⟩ := compile_successor (.inr rfl)
  obtain ⟨program, -, hhanded⟩ := handed_of_compile hcompile
  refine ⟨h, s', hcompile, fun x => ?_, hinvoke, call_of_ownName hhanded (by decide)⟩
  rw [hparameters]
  rfl

end Session
end LoopNest
